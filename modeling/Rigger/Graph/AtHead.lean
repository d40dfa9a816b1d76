import Rigger.Graph.CatchUp
import Mathlib.Algebra.GroupWithZero.Nat
import Mathlib.Data.List.Perm.Subperm

/-!
# Reaching the head of the log

Outside a rebuild's swap no step moves the cursor back or takes a position off the ledger
(`forward_step`).  Every call that answers `advanced` moved the cursor, so a run has no more of them
than positions it passed (`advanced_bounded`), and a call that answers `atHead` was told so by a
ledger that holds the whole log (`at_head_whole`).  Neither the swap of a rebuild nor its tail
leaves a hole up to the head its source was read at (`rebuild_whole`).
-/

namespace Rigger.Graph

open Lib

/-- The ledger only grew, and the cursor stands where it stood or past it, beside the same log. -/
structure Forward (f g : File) : Prop where
  grows : Grows f.folded g.folded
  cursor : ∀ c, f.caughtUp = some c → ∃ c', g.caughtUp = some c' ∧ c'.store = c.store ∧
    c.position ≤ c'.position

theorem Forward.refl (f : File) : Forward f f :=
  ⟨Grows.refl _, fun c hc => ⟨c, hc, rfl, le_rfl⟩⟩

theorem forward_of_grows {f g : File} (hgrows : Grows f.folded g.folded)
    (hcursor : g.caughtUp = f.caughtUp) : Forward f g :=
  ⟨hgrows, fun c hc => ⟨c, hcursor.trans hc, rfl, le_rfl⟩⟩

section
variable {project : String} {reading : Reading} {w : World}

theorem forward_cut (reading : Reading) (f : File) (store : String) (p : Page)
    (extracted : Extracted) : Forward f (f.cut reading store p extracted).1 := by
  rcases cut_cases reading f store p extracted with ⟨a, heq, -⟩ |
    ⟨c, folded, -, hcursor, -, hthrough, hgrows, -, heq⟩
  · rw [heq]
    exact Forward.refl f
  · rw [heq]
    refine ⟨hgrows, fun c' hc' => ⟨_, rfl, ?_, ?_⟩⟩
    · rw [hcursor] at hc'
      cases hc'
      rfl
    · rw [hcursor] at hc'
      cases hc'
      exact Nat.le_of_lt hthrough

theorem forward_seed (f : File) (store : String) (live : List Nat)
    (stampOf : Nat → Option SystemTime) (logHead : Option Nat) (now : SystemTime) :
    Forward f (f.seedCursor store live stampOf logHead now).1 := by
  rcases seedCursor_writes f store live stampOf logHead now with heq | ⟨c, hnone, -, -, heq⟩
  · rw [heq]
    exact Forward.refl f
  · rw [heq]
    refine ⟨Grows.refl _, fun c' hc' => ?_⟩
    rw [hnone] at hc'
    cases hc'

theorem forward_finish (f : File) (store : String) : Forward f (f.finish store) := by
  refine ⟨Grows.refl _, fun c hc => ⟨⟨max c.position
    ((f.rebuild.map RebuildState.position).getD 0), c.store⟩, ?_, rfl, Nat.le_max_left _ _⟩⟩
  show (f.caughtUp.or _).map _ = _
  rw [hc]
  rfl

/-- A part folded into the target leaves the file, or takes it forward. -/
theorem forward_refoldOf (rb : Rebuilding) (part : List Event) (parts : List (List Event))
    (extracted : Extracted) :
    Forward w.file (w.refoldOf reading rb part parts extracted).file := by
  unfold World.refoldOf
  split
  · exact Forward.refl _
  · split
    · exact Forward.refl _
    · exact Forward.refl _
  · next g hrefold =>
    obtain ⟨folded, hgrows, -, rfl⟩ := refold_writes hrefold
    by_cases hstage : rb.stage = .shadow
    · unfold World.setTarget
      rw [hstage]
      exact Forward.refl _
    · rw [target_file hstage] at hgrows
      have hset : ∀ f : File, (w.setTarget rb f).file = f := by
        intro f
        unfold World.setTarget
        cases hs : rb.stage with
        | shadow => exact absurd hs hstage
        | swapped => rfl
        | tail => rfl
      show Forward w.file (w.setTarget rb _).file
      rw [hset]
      exact forward_of_grows hgrows (by rw [target_file hstage])

/-- A cut does nothing, or is one of the page its call holds. -/
theorem step_cut (project : String) (reading : Reading) (w : World) (c : Nat) :
    step project reading w (.cut c) = w ∨ ∃ k events extracted, w.callers c = some k ∧
      k.page = some events ∧
      step project reading w (.cut c) = w.cutOf reading c k events extracted := by
  dsimp only [step]
  split
  · next k hk =>
    split
    · next events hpage =>
      split
      · next extracted _ => exact Or.inr ⟨k, events, extracted, hk, hpage, rfl⟩
      · exact Or.inl rfl
    · exact Or.inl rfl
  · exact Or.inl rfl

theorem cutOf_file (w : World) (c : Nat) (k : Caller) (events : List Event)
    (extracted : Extracted) :
    (w.cutOf reading c k events extracted).file =
      (w.file.cut reading k.store ⟨k.from_, events⟩ extracted).1 := by
  unfold World.cutOf
  dsimp only
  repeat' split
  all_goals rfl

theorem answers_answer (w : World) (c : Nat) (a : CatchUp) : (w.answer c a).answers c = some a :=
  Function.update_self _ _ _

theorem answers_hold (w : World) (c : Nat) (k : Caller) : (w.hold c k).answers c = none :=
  Function.update_self _ _ _

variable {extracted : Extracted} {recorded : Nat} {act : Act} {acts : List Act}

theorem cutOf_advanced {c : Nat} {k : Caller} {events : List Event}
    (h : (w.cutOf reading c k events extracted).answers c = some (.advanced recorded)) :
    (w.file.cut reading k.store ⟨k.from_, events⟩ extracted).2 = .advanced recorded := by
  unfold World.cutOf at h
  dsimp only at h
  split at h
  · next n hcut =>
    rw [answers_answer] at h
    cases h
    exact hcut
  · rw [answers_answer] at h
    cases h
  · rw [answers_answer] at h
    cases h
  · split at h
    · rw [answers_answer] at h
      cases h
    · rw [answers_hold] at h
      cases h
  · split at h
    · rw [answers_answer] at h
      cases h
    · rw [answers_hold] at h
      cases h

theorem forward_step (project : String) (reading : Reading) (w : World) (hswap : act ≠ .swap) :
    Forward w.file (step project reading w act).file := by
  cases act with
  | swap => exact absurd rfl hswap
  | cut c =>
    rcases step_cut project reading w c with heq | ⟨k, events, extracted, -, -, heq⟩
    · rw [heq]
      exact Forward.refl _
    · rw [heq, cutOf_file]
      exact forward_cut _ _ _ _ _
  | fold calls =>
    dsimp only [step]
    split
    · exact Forward.refl _
    · exact forward_of_grows (transact_grows _ calls) rfl
  | prune ids before =>
    exact forward_of_grows (((Grows.refl _).tables _).trans (grows_settled _)) rfl
  | seed store logHead now =>
    dsimp only [step]
    split
    · exact Forward.refl _
    · exact forward_seed _ _ _ _ _ _
  | refold =>
    dsimp only [step]
    repeat' split
    all_goals first | exact forward_refoldOf _ _ _ _ | exact Forward.refl _
  | finish =>
    dsimp only [step]
    repeat' split
    all_goals first | exact forward_finish _ _ | exact Forward.refl _
  | _ =>
    dsimp only [step, World.start, World.readPageOf, World.extractOf, World.beginRebuild,
      World.gatherOf]
    repeat' split
    all_goals exact Forward.refl _

/-! ## Advancing -/

/-- What a cut's call reports recorded, where it answers `advanced`. -/
def advancedBy (project : String) (reading : Reading) (w : World) : Act → List Nat
  | .cut c =>
    match w.answers c, (step project reading w (.cut c)).answers c with
    | none, some (.advanced recorded) => [recorded]
    | _, _ => []
  | _ => []

theorem cut_advanced {f : File} {store : String} {p : Page}
    (h : (f.cut reading store p extracted).2 = .advanced recorded) :
    ∃ c, f.caughtUp = some ⟨c, some store⟩ ∧ c < p.through ∧
      (f.cut reading store p extracted).1.caughtUp = some ⟨p.through, some store⟩ ∧
      recorded = (f.cut reading store p extracted).1.appliedBetween c p.through -
        f.appliedBetween c p.through := by
  rcases cut_cases reading f store p extracted with ⟨a, heq, hnot, -⟩ |
    ⟨c, folded, -, hcursor, -, hthrough, -, -, heq⟩
  · rw [heq] at h
    exact absurd h (hnot recorded)
  · rw [heq] at h ⊢
    exact ⟨c, hcursor, hthrough, rfl, (CutAnswer.advanced.inj h).symm⟩

theorem countP_sub_le {s t : Std.ExtTreeSet Nat} (h : ∀ p ∈ s, p ∈ t) (P : Nat → Bool) :
    t.toList.countP P - s.toList.countP P + s.size ≤ t.size := by
  have hsub : s.toList.Subperm t.toList := by
    refine List.subperm_of_subset ?_ fun p hp => ?_
    · exact (Std.ExtTreeSet.ordered_toList.imp Nat.compare_eq_lt.1).imp Nat.ne_of_lt
    · exact Std.ExtTreeSet.mem_toList.2 (h p (Std.ExtTreeSet.mem_toList.1 hp))
  have hin := hsub.countP_le P
  have hout := hsub.countP_le fun p => !P p
  have hs := s.toList.length_eq_countP_add_countP P
  have ht := t.toList.length_eq_countP_add_countP P
  rw [Std.ExtTreeSet.length_toList] at hs ht
  have hnot : ∀ l : List Nat, l.countP (fun p => decide ¬P p = true) = l.countP fun p => !P p :=
    fun l => List.countP_congr fun p _ => by simp
  rw [hnot] at hs ht
  omega

/-- A step reports nothing, or is the cut of a call that it lets answer `advanced`. -/
theorem advancedBy_cases (project : String) (reading : Reading) (w : World) (act : Act) :
    advancedBy project reading w act = [] ∨
      ∃ c k events extracted recorded,
        step project reading w act = w.cutOf reading c k events extracted ∧
        (w.cutOf reading c k events extracted).answers c = some (.advanced recorded) ∧
        advancedBy project reading w act = [recorded] := by
  unfold advancedBy
  split
  · next c =>
    split
    · next recorded hbefore hafter =>
      rcases step_cut project reading w c with heq | ⟨k, events, extracted, -, -, heq⟩
      · rw [heq, hbefore] at hafter
        cases hafter
      · exact Or.inr ⟨c, k, events, extracted, recorded, heq, heq ▸ hafter, rfl⟩
    · exact Or.inl rfl
  · exact Or.inl rfl

/-- What a step reports recorded the ledger gained, and each report moved the cursor. -/
theorem advancedBy_step (project : String) (reading : Reading) (w : World) (hswap : act ≠ .swap)
    {c : CaughtUp} (hc : w.file.caughtUp = some c) :
    let w' := step project reading w act
    let told := advancedBy project reading w act
    ∃ c', w'.file.caughtUp = some c' ∧ c'.store = c.store ∧
      c.position + told.length ≤ c'.position ∧
      told.sum + w.file.folded.applied.size ≤ w'.file.folded.applied.size := by
  intro w' told
  have hforward := forward_step project reading w hswap
  obtain ⟨c', hc', hstore, hle⟩ := hforward.cursor c hc
  rcases advancedBy_cases project reading w act with hnil |
    ⟨c₀, k, events, extracted, recorded, heq, hsome, htold⟩
  · have hgained : w.file.folded.applied.size ≤ w'.file.folded.applied.size :=
      (Nat.le_add_left _ _).trans (countP_sub_le hforward.grows.applied fun _ => true)
    rw [show told = [] from hnil]
    exact ⟨c', hc', hstore, hle, (Nat.zero_add _).trans_le hgained⟩
  · obtain ⟨at_, hcursor, hlt, hmoved, hrecorded⟩ := cut_advanced (cutOf_advanced hsome)
    rw [hc] at hcursor
    cases hcursor
    have hfile : w'.file = (w.file.cut reading k.store ⟨k.from_, events⟩ extracted).1 := by
      show (step project reading w act).file = _
      rw [heq, cutOf_file]
    rw [show told = [recorded] from htold, hfile]
    refine ⟨_, hmoved, rfl, hlt, ?_⟩
    rw [List.sum_singleton, hrecorded]
    exact countP_sub_le (forward_cut reading w.file k.store ⟨k.from_, events⟩
      extracted).grows.applied _

/-- In a run without a swap the calls that answer `advanced` are no more than the positions the
cursor passed, and together they report no more than the ledger gained. -/
theorem advanced_bounded (project : String) (reading : Reading) (w : World) {acts : List Act}
    (hswap : ∀ act ∈ acts, act ≠ .swap) {c : CaughtUp} (hc : w.file.caughtUp = some c) :
    let w' := run (step project reading) w acts
    let told := trace (advancedBy project reading) (step project reading) w acts
    ∃ c', w'.file.caughtUp = some c' ∧ c'.store = c.store ∧
      c.position + told.length ≤ c'.position ∧
      told.sum + w.file.folded.applied.size ≤ w'.file.folded.applied.size := by
  induction acts generalizing w c with
  | nil => exact ⟨c, hc, rfl, le_rfl, Nat.le_of_eq (Nat.zero_add _)⟩
  | cons act acts ih =>
    obtain ⟨c₁, hc₁, hstore₁, hle₁, hsum₁⟩ := advancedBy_step project reading
      w (hswap act List.mem_cons_self) hc
    obtain ⟨c₂, hc₂, hstore₂, hle₂, hsum₂⟩ :=
      ih (step project reading w act) (fun a ha => hswap a (List.mem_cons_of_mem _ ha)) hc₁
    refine ⟨c₂, hc₂, hstore₂.trans hstore₁, ?_, ?_⟩
    · show c.position + (advancedBy project reading w act ++ _).length ≤ c₂.position
      rw [List.length_append]
      omega
    · show (advancedBy project reading w act ++ _).sum + _ ≤
        (run (step project reading) (step project reading w act) acts).file.folded.applied.size
      rw [List.sum_append]
      omega

def seededRun : List Act := [.seed "db" none 0, noteTwo]

def callRun : List Act := [.start 0 "db", .page 0, .cut 0]

theorem advanced_bounded_once : ∃ c', (notedRun (seededRun ++ callRun)).file.caughtUp = some c' ∧
    c'.store = some "db" ∧ 0 + (trace (advancedBy "p" notedReading) (step "p" notedReading)
      (notedRun seededRun) callRun).length ≤ c'.position := by
  obtain ⟨c', hc', hstore, hle, -⟩ := advanced_bounded "p" notedReading (notedRun seededRun)
    (show ∀ act ∈ callRun, act ≠ .swap by simp [callRun]) (c := ⟨0, some "db"⟩) (by decide +kernel)
  exact ⟨c', hc', hstore, hle⟩

/-! ## The head -/

/-- A call under way reads from where the cursor stands or stood before. -/
def Behind (w : World) (c : Nat) : Prop :=
  ∀ k, w.callers c = some k → ∃ at_, w.file.caughtUp = some ⟨at_, some k.store⟩ ∧ k.from_ ≤ at_

theorem live_le_of_atHead {s : Store} {from_ : Nat} (h : readPage project s from_ = []) :
    ∀ p ∈ livePositions project s, p ≤ from_ := by
  intro p hp
  by_contra hlt
  obtain ⟨r, hr, rfl, -⟩ := live_scoped hp
  have hpast : (scopedRows project s).filter (fun r => from_ < r.1) = [] := by
    rw [readPage_eq, List.map_eq_nil_iff, List.take_eq_nil_iff] at h
    exact h.resolve_left (by decide)
  have hnot := List.filter_eq_nil_iff.1 hpast r hr
  exact hnot (decide_eq_true (Nat.lt_of_not_le hlt))

/-- What a call reads from is what it read from before, or the cursor the file then carries. -/
def Reads (w v : World) (c : Nat) (k : Caller) : Prop :=
  (∃ k', w.callers c = some k' ∧ k.store = k'.store ∧ k.from_ = k'.from_) ∨
    v.file.caughtUp = some ⟨k.from_, some k.store⟩

section
variable {c : Nat} {k : Caller} {v : World}

theorem reads_answer (hcallers : v.callers = w.callers) {c₀ : Nat} {a : CatchUp}
    (h : (v.answer c₀ a).callers c = some k) : Reads w (v.answer c₀ a) c k := by
  by_cases heq : c = c₀
  · rw [heq] at h
    exact absurd ((Function.update_self _ _ _).symm.trans h) nofun
  · have hsame : v.callers c = some k := (Function.update_of_ne heq _ _).symm.trans h
    rw [hcallers] at hsame
    exact Or.inl ⟨k, hsame, rfl, rfl⟩

theorem reads_hold (hcallers : v.callers = w.callers) {c₀ : Nat} {k₀ : Caller}
    (h : (v.hold c₀ k₀).callers c = some k) (h₀ : Reads w v c₀ k₀) :
    Reads w (v.hold c₀ k₀) c k := by
  by_cases heq : c = c₀
  · subst heq
    have hk := (Function.update_self _ _ _).symm.trans h
    cases hk
    exact h₀
  · have hsame : v.callers c = some k := (Function.update_of_ne heq _ _).symm.trans h
    rw [hcallers] at hsame
    exact Or.inl ⟨k, hsame, rfl, rfl⟩

theorem reads_same (hcallers : v.callers = w.callers) (h : v.callers c = some k) : Reads w v c k :=
  Or.inl ⟨k, hcallers ▸ h, rfl, rfl⟩

theorem cut_reread {f : File} {store : String} {p : Page} {extracted : Extracted} {at_ : Nat}
    (h : (f.cut reading store p extracted).2 = .reread at_) :
    (f.cut reading store p extracted).1.caughtUp = some ⟨at_, some store⟩ := by
  rcases cut_cases reading f store p extracted with ⟨a, heq, -, hreread⟩ |
    ⟨c, folded, -, -, -, -, -, -, heq⟩
  · rw [heq] at h ⊢
    exact hreread at_ h
  · rw [heq] at h
    cases h

theorem reads_step {act : Act} (hv : step project reading w act = v) (h : v.callers c = some k) :
    Reads w v c k := by
  cases act with
  | start c₀ store =>
    dsimp only [step, World.start] at hv
    split at hv
    · subst hv
      exact reads_same rfl h
    · split at hv
      · subst hv
        exact reads_answer rfl h
      · next at_ hstanding =>
        subst hv
        exact reads_hold rfl h (Or.inr (standingCursor_ok hstanding).2)
  | page c₀ =>
    dsimp only [step, World.readPageOf] at hv
    split at hv
    · next k₀ hk₀ =>
      split at hv
      · subst hv
        exact reads_same rfl h
      · split at hv
        · subst hv
          exact reads_answer rfl h
        · subst hv
          exact reads_hold rfl h (Or.inl ⟨k₀, hk₀, rfl, rfl⟩)
    · subst hv
      exact reads_same rfl h
  | extract c₀ reextract =>
    dsimp only [step, World.extractOf] at hv
    split at hv
    · next store from_ outrun events retried hk₀ =>
      split at hv
      · split at hv
        · subst hv
          exact reads_hold rfl h (Or.inl ⟨_, hk₀, rfl, rfl⟩)
        · subst hv
          exact reads_answer rfl h
      · subst hv
        exact reads_same rfl h
    · subst hv
      exact reads_same rfl h
  | cut c₀ =>
    rcases step_cut project reading w c₀ with heq | ⟨k₀, events, extracted, hk₀, -, heq⟩
    · rw [heq] at hv
      subst hv
      exact reads_same rfl h
    · rw [heq] at hv
      unfold World.cutOf at hv
      dsimp only at hv
      split at hv
      · subst hv
        exact reads_answer rfl h
      · subst hv
        exact reads_answer rfl h
      · subst hv
        exact reads_answer rfl h
      · next at_ hreread =>
        split at hv
        · subst hv
          exact reads_answer rfl h
        · subst hv
          exact reads_hold rfl h (Or.inr (cut_reread hreread))
      · split at hv
        · subst hv
          exact reads_answer rfl h
        · subst hv
          exact reads_hold rfl h (Or.inl ⟨k₀, hk₀, rfl, rfl⟩)
  | contended c₀ =>
    dsimp only [step] at hv
    split at hv
    · split at hv
      · subst hv
        exact reads_answer rfl h
      · subst hv
        exact reads_same rfl h
    · subst hv
      exact reads_same rfl h
  | broken c₀ =>
    dsimp only [step] at hv
    split at hv
    · split at hv
      · subst hv
        exact reads_same rfl h
      · subst hv
        exact reads_answer rfl h
    · subst hv
      exact reads_same rfl h
  | _ =>
    -- the writers that are no call of a catch-up
    refine reads_same ?_ h
    subst hv
    dsimp only [step, World.seed, World.beginRebuild, World.gatherOf, World.refoldOf,
      World.setTarget]
    repeat' split
    all_goals rfl

end

/-- A call keeps reading from where the cursor stands or stood, until a swap. -/
theorem behind_step {c : Nat} (h : Behind w c) (hswap : act ≠ .swap) :
    Behind (step project reading w act) c := by
  intro k hk
  rcases reads_step rfl hk with ⟨k', hk', hstore, hfrom⟩ | hcursor
  · obtain ⟨at_, hcursor, hle⟩ := h k' hk'
    obtain ⟨⟨at', store'⟩, hcursor', hstore', hle'⟩ :=
      (forward_step project reading w hswap).cursor _ hcursor
    cases hstore'
    exact ⟨at', by rw [hcursor', hstore], hfrom.trans_le (hle.trans hle')⟩
  · exact ⟨k.from_, hcursor, le_rfl⟩

theorem behind_run {c : Nat} (h : Behind w c) (hswap : ∀ act ∈ acts, act ≠ .swap) :
    Behind (run (step project reading) w acts) c := by
  induction acts generalizing w with
  | nil => exact h
  | cons act acts ih =>
    exact ih (behind_step h (hswap act List.mem_cons_self)) fun a ha =>
      hswap a (List.mem_cons_of_mem _ ha)

/-- A call begun after the last swap that answers `atHead` leaves nothing behind: at that moment the
ledger holds every live position of the log. -/
theorem at_head_whole (project : String) (reading : Reading) (logs : String → Store)
    (hlogs : ∀ store, (logs store).Ordered) (folded : Folded) (rule : Int)
    (before after : List Act) (hswap : ∀ act ∈ after, act ≠ .swap)
    (hacts : Along (step project reading) Beside (World.new logs folded rule) (before ++ after)) :
    let w := run (step project reading) (World.new logs folded rule) (before ++ after)
    ∀ c k, (run (step project reading) (World.new logs folded rule) before).callers c = none →
      w.callers c = some k → k.page = none →
      (step project reading w (.page c)).answers c = some .atHead →
      ∀ p ∈ livePositions project (w.logs k.store), p ∈ w.file.folded.applied := by
  intro w c k hidle hk hpage hanswer p hp
  have hsound : Sound project w := sound_run hlogs folded rule hacts
  have hbehind : Behind w c := by
    have hw : w = run (step project reading)
        (run (step project reading) (World.new logs folded rule) before) after := run_append _ _ _ _
    rw [hw]
    refine behind_run (fun k' hk' => ?_) hswap
    rw [hidle] at hk'
    cases hk'
  obtain ⟨at_, hcursor, hle⟩ := hbehind k hk
  have hempty : readPage project (w.logs k.store) k.from_ = [] := by
    dsimp only [step] at hanswer
    rw [hk] at hanswer
    dsimp only at hanswer
    rw [hpage, Option.isSome_none, if_neg Bool.false_ne_true] at hanswer
    unfold World.readPageOf at hanswer
    split at hanswer
    · next hnil => exact hnil
    · rw [answers_hold] at hanswer
      cases hanswer
  exact (hsound.file.caughtUp at_ k.store hcursor).followed p hp
    ((live_le_of_atHead hempty p hp).trans hle)

/-- A call after one that reached the head. -/
def headRun : List Act := callRun ++ ([.start 0 "db"] : List Act)

theorem at_head_whole_noted :
    2 ∈ (notedRun (seededRun ++ headRun)).file.folded.applied := by
  have hany : (((notedRun (seededRun ++ headRun)).callers 0).any fun k =>
      k.page.isNone && k.store == "db") = true := by decide +kernel
  obtain ⟨k, hk, hrest⟩ := (Option.any_eq_true _ _).1 hany
  rw [Bool.and_eq_true, Option.isNone_iff_eq_none, beq_iff_eq] at hrest
  have hwhole := at_head_whole "p" notedReading (fun _ => .empty) (fun _ => Store.ordered_empty)
    .empty 5 seededRun headRun (by simp [headRun, callRun])
    ⟨trivial, trivial, trivial, trivial, trivial, trivial, trivial⟩ 0 k
    (by decide +kernel) hk hrest.1
    (by decide +kernel)
  rw [hrest.2] at hwhole
  exact hwhole 2 (by decide +kernel)

/-! ## The end of a source -/

/-- A rebuild that folded its source to the end holds the log up to the head the source was read
at. -/
theorem Sound.whole (h : Sound project w) {rb : Rebuilding} (hrb : w.rebuilding = some rb)
    (hparts : rb.parts = []) : ∀ p ∈ livePositions project (w.logs rb.store), p ≤ rb.head →
      p ∈ (w.target rb).folded.applied := by
  intro p hp hle
  obtain ⟨hbeside, state, hstate, hhanded⟩ := h.rebuilding rb hrb
  rw [hparts] at hhanded
  by_cases hstood : p ≤ state.position
  · exact ((h.target rb).beside hbeside hstate).followed p hp hstood
  · cases hhanded.spans p hp (Nat.lt_of_not_le hstood) hle

/-- A rebuild that folded its source to the end swaps in a copy that holds the log up to the head
the source was read at; one that folded its tail so leaves a cursor and nothing owed. -/
theorem rebuild_whole (project : String) (reading : Reading) (logs : String → Store)
    (hlogs : ∀ store, (logs store).Ordered) (folded : Folded) (rule : Int) (acts : List Act)
    (hacts : Along (step project reading) Beside (World.new logs folded rule) acts) :
    let w := run (step project reading) (World.new logs folded rule) acts
    ∀ rb, w.rebuilding = some rb → rb.parts = [] →
      (rb.stage = .shadow → ∀ p ∈ livePositions project (w.logs rb.store), p ≤ rb.head →
        p ∈ (step project reading w .swap).file.folded.applied) ∧
      (rb.stage = .tail →
        let finished := (step project reading w .finish).file
        finished.rebuild = none ∧ (∃ c, finished.caughtUp = some ⟨c, some rb.store⟩) ∧
          ∀ p ∈ livePositions project (w.logs rb.store), p ≤ rb.head →
            p ∈ finished.folded.applied) := by
  intro w rb hrb hparts
  have hsound : Sound project w := sound_run hlogs folded rule hacts
  have hwhole := hsound.whole hrb hparts
  obtain ⟨hbeside, state, hstate, -⟩ := hsound.rebuilding rb hrb
  constructor
  · intro hstage
    rw [target_shadow hstage] at hwhole hstate
    dsimp only [step]
    rw [hrb]
    cases hshadow : w.shadow with
    | none =>
      rw [hshadow] at hstate
      cases hstate
    | some shadow =>
      rw [hshadow] at hwhole
      dsimp only
      rw [if_pos ⟨hstage, hparts⟩]
      exact hwhole
  · intro hstage
    rw [target_file (by rw [hstage]; nofun)] at hwhole hbeside hstate
    obtain ⟨c, store, hc, -⟩ := hsound.file.rebuild state hstate
    obtain rfl : store = rb.store := Option.some.inj (beside_iff.1 hbeside _ hc)
    have hfinish : (step project reading w .finish).file = w.file.finish rb.store := by
      dsimp only [step]
      rw [hrb]
      dsimp only
      rw [if_pos ⟨hstage, hparts⟩]
    rw [hfinish]
    refine ⟨rfl, ⟨max c ((w.file.rebuild.map RebuildState.position).getD 0), ?_⟩, hwhole⟩
    show ((w.file.caughtUp.or _).map _) = _
    rw [hc]
    rfl

/-- A rebuild of a file that missed the log, to its tail. -/
def tailRun : List Act :=
  [noteTwo, .seed "db" (some 2) 3, .rebuild, .refold, .swap, .unshadow]

theorem rebuild_whole_tail :
    let w := notedRun tailRun
    (step "p" notedReading w .finish).file.rebuild = none ∧
      ∀ p ∈ livePositions "p" (w.logs "db"), p ≤ 2 →
        p ∈ (step "p" notedReading w .finish).file.folded.applied := by
  have hany : ((notedRun tailRun).rebuilding.any fun rb =>
      decide (rb.stage = .tail) && rb.parts.isEmpty && rb.store == "db" &&
          rb.head == 2) = true := by
    decide +kernel
  obtain ⟨rb, hrb, hrest⟩ := (Option.any_eq_true _ _).1 hany
  simp only [Bool.and_eq_true, decide_eq_true_eq, List.isEmpty_iff, beq_iff_eq] at hrest
  have hbeside : Along (step "p" notedReading) Beside (World.new (fun _ => .empty) .empty 5)
      tailRun :=
    ⟨trivial, trivial, trivial, trivial, trivial, trivial, trivial⟩
  have hfinished := (rebuild_whole "p" notedReading (fun _ => .empty) (fun _ => Store.ordered_empty)
    .empty 5 tailRun hbeside rb hrb hrest.1.1.2).2 hrest.1.1.1
  rw [hrest.1.2, hrest.2] at hfinished
  exact ⟨hfinished.1, hfinished.2.2⟩

end

end Rigger.Graph
