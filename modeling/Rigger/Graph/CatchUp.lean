import Rigger.Graph.Ledger
import Rigger.Graph.Paging
import Rigger.Graph.Seeding

/-!
# Catching up with the log

Whatever is interleaved with it, a catch-up leaves no hole below its cursor: every live position of
the log at or below the cursor is in the ledger (`caught_up_whole`).  The cut moves the cursor only
from inside the page it holds, over positions its own transaction or another's has recorded; a
rebuild's shadow keeps the same of its own cursors, and its swap brings them in with its ledger
(`Truthful`).
-/

namespace Rigger.Graph

open Lib

section
variable {project : String} {s s' : Store}

/-! ## Files -/

/-- The file's ledger holds the log's live positions up to `c`. -/
structure FoldedTo (project : String) (s : Store) (f : Folded) (c : Nat) : Prop where
  issued : c ≤ s.seq
  followed : Followed (live project s) {p | p ∈ f.applied} c

/-- What a file's cursors stand for beside the logs. -/
structure Truthful (project : String) (logs : String → Store) (f : File) : Prop where
  caughtUp : ∀ c store, f.caughtUp = some ⟨c, some store⟩ →
    FoldedTo project (logs store) f.folded c
  rebuild : ∀ state, f.rebuild = some state → ∃ c store, f.caughtUp = some ⟨c, some store⟩ ∧
    FoldedTo project (logs store) f.folded state.position

section
variable {f g : Folded} {a b c : Nat}

theorem FoldedTo.later (h : FoldedTo project s f c) (hlater : Later project s s') :
    FoldedTo project s' f c :=
  ⟨h.issued.trans hlater.issued,
    h.followed.grow (fun p hp hle => hlater.live p hp (hle.trans h.issued)) subset_rfl⟩

theorem FoldedTo.grow (h : FoldedTo project s f c) (hgrows : Grows f g) : FoldedTo project s g c :=
  ⟨h.issued, h.followed.grow (fun _ hp _ => hp) hgrows.applied⟩

theorem foldedTo_zero : FoldedTo project s f 0 :=
  ⟨Nat.zero_le _, followed_zero fun _ hp => live_pos hp⟩

theorem FoldedTo.both (ha : FoldedTo project s f a) (hb : FoldedTo project s f b) :
    FoldedTo project s f (max a b) := by
  rcases Nat.le_total a b with hle | hle
  · rwa [Nat.max_eq_right hle]
  · rwa [Nat.max_eq_left hle]

/-- A stretch folded from the cursor or below takes the cursor to its end. -/
theorem FoldedTo.advance {l : List Nat} (h : FoldedTo project s f c)
    (hspans : Spans (live project s) a l b) (hle : a ≤ c) (hb : b ≤ s.seq) (hgrows : Grows f g)
    (hl : ∀ p ∈ l, p ∈ g.applied) : FoldedTo project s g (max c b) :=
  ⟨Nat.max_le.2 ⟨h.issued, hb⟩, h.followed.advance hspans hle hgrows.applied hl⟩

end

section
variable {reading : Reading} {f : File} {logs logs' : String → Store} {store : String} {c : Nat}
  {extracted : Extracted} {part : List Event} {state : RebuildState}

theorem decidePart_some {f g : Folded} {read : Bool}
    (h : decidePart reading f part extracted = some (g, read)) :
    Grows f g ∧ (read = true → ∀ e ∈ part, e.position ∈ g.applied) ∧ (read = false → g = f) := by
  unfold decidePart at h
  split at h
  · next entry hentry =>
    have hpart : part = [entry] := by
      unfold partEntry at hentry
      split at hentry
      · split at hentry
        · rw [Option.some.inj hentry]
        · cases hentry
      · cases hentry
    obtain ⟨hgrows, hread, hunread⟩ := decideEntry_some h
    refine ⟨hgrows, fun htrue e he => ?_, hunread⟩
    rw [hpart, List.mem_singleton] at he
    rw [he]
    exact hread htrue
  · obtain ⟨folded, hfold, heq⟩ := Option.map_eq_some_iff.1 h
    cases heq
    obtain ⟨hgrows, hall⟩ := foldlM_records id decideEvent_some hfold
    exact ⟨hgrows, fun _ => hall, nofun⟩

theorem standingCursor_ok (h : f.standingCursor store = .ok c) :
    f.rebuild = none ∧ f.caughtUp = some ⟨c, some store⟩ := by
  unfold File.standingCursor at h
  split at h
  · cases h
  · next hrebuild =>
    split at h
    · cases h
    · split at h
      · cases h
      · next cursor hcursor =>
        split at h
        · cases h
        · next hlog =>
          cases h
          rw [logSwitched, Bool.not_eq_true, bne_eq_false_iff_eq] at hlog
          rw [Option.not_isSome_iff_eq_none] at hrebuild
          refine ⟨hrebuild, ?_⟩
          rw [hcursor, ← hlog]

theorem Truthful.later (h : Truthful project logs f)
    (hlater : ∀ store, Later project (logs store) (logs' store)) : Truthful project logs' f := by
  refine ⟨fun c store hc => (h.caughtUp c store hc).later (hlater store), fun state hstate => ?_⟩
  obtain ⟨c, store, hc, hfolded⟩ := h.rebuild state hstate
  exact ⟨c, store, hc, hfolded.later (hlater store)⟩

theorem Truthful.grow (h : Truthful project logs f) {folded : Folded}
    (hgrows : Grows f.folded folded) :
    Truthful project logs { f with folded := folded } := by
  refine ⟨fun c store hc => (h.caughtUp c store hc).grow hgrows, fun state hstate => ?_⟩
  obtain ⟨c, store, hc, hfolded⟩ := h.rebuild state hstate
  exact ⟨c, store, hc, hfolded.grow hgrows⟩

/-- A cut does nothing, and tells its call why, or it folds its part, leaves its end as the cursor
and tells what the ledger gained up to there. -/
theorem cut_cases (reading : Reading) (f : File) (store : String) (p : Page)
    (extracted : Extracted) :
    (∃ a, f.cut reading store p extracted = (f, a) ∧ (∀ recorded, a ≠ .advanced recorded) ∧
        ∀ at_, a = .reread at_ → f.caughtUp = some ⟨at_, some store⟩) ∨
      ∃ c folded, f.rebuild = none ∧ f.caughtUp = some ⟨c, some store⟩ ∧ p.from_ ≤ c ∧
        c < p.through ∧ Grows f.folded folded ∧ (∀ e ∈ p.part, e.position ∈ folded.applied) ∧
        let next := { f with folded := folded, caughtUp := some ⟨p.through, some store⟩ }
        f.cut reading store p extracted = (next,
          .advanced (next.appliedBetween c p.through - f.appliedBetween c p.through)) := by
  unfold File.cut
  cases hstanding : f.standingCursor store with
  | error cause => exact Or.inl ⟨_, rfl, nofun, nofun⟩
  | ok c =>
    obtain ⟨hrebuild, hcursor⟩ := standingCursor_ok hstanding
    dsimp only
    split
    · refine Or.inl ⟨_, rfl, nofun, fun at_ hat => ?_⟩
      cases hat
      exact hcursor
    · next hinside =>
      rw [not_not] at hinside
      split
      · exact Or.inl ⟨_, rfl, nofun, nofun⟩
      · exact Or.inl ⟨_, rfl, nofun, nofun⟩
      · next folded hdecided =>
        obtain ⟨hgrows, hread, -⟩ := decidePart_some hdecided
        refine Or.inr ⟨c, folded.settled, hrebuild, hcursor, hinside.1, hinside.2,
          hgrows.trans (grows_settled folded), hread rfl, ?_⟩
        have hset : File.setCaughtUp { f with folded := folded.settled } p.through =
            { f with folded := folded.settled, caughtUp := some ⟨p.through, some store⟩ } := by
          unfold File.setCaughtUp
          rw [hcursor, Option.map_some]
          dsimp only
          rw [Nat.max_eq_right (Nat.le_of_lt hinside.2)]
        rw [hset]

theorem truthful_cut (h : Truthful project logs f) {p : Page} (hp : PageFrom project (logs store) p)
    (reading : Reading) (extracted : Extracted) :
    Truthful project logs (f.cut reading store p extracted).1 := by
  rcases cut_cases reading f store p extracted with ⟨a, heq, -⟩ |
    ⟨c, folded, hrebuild, hcursor, hfrom, hthrough, hgrows, hmem, heq⟩
  · rwa [heq]
  · rw [heq]
    refine ⟨fun c' store' hc' => ?_, fun state hstate => ?_⟩
    · cases hc'
      have hadvance := (h.caughtUp c store hcursor).advance hp.spans_part hfrom
        (hp.through_le_last.trans hp.issued) hgrows fun q hq => by
          obtain ⟨e, he, rfl⟩ := List.mem_map.1 hq
          exact hmem e he
      rwa [Nat.max_eq_right (Nat.le_of_lt hthrough)] at hadvance
    · rw [show f.rebuild = some state from hstate] at hrebuild
      cases hrebuild

/-- The file's cursor, if it carries one, is recorded beside the log. -/
def File.beside (f : File) (store : String) : Bool :=
  f.caughtUp.all fun c => !logSwitched c.store store

theorem beside_iff : f.beside store = true ↔
    ∀ c, f.caughtUp = some c → c.store = some store := by
  unfold File.beside logSwitched
  rw [Option.all_eq_true]
  refine forall_congr' fun c => imp_congr_right fun _ => ?_
  rw [Bool.not_eq_true', bne_eq_false_iff_eq]

variable {g : File} {gather : Bool}

theorem beside_of_eq (h : g.caughtUp = f.caughtUp) :
    g.beside store = f.beside store := by rw [File.beside, File.beside, h]

theorem beside_createCursor (h : f.beside store = true) (c : Nat) :
    (f.createCursor c store).beside store = true := by
  rw [beside_iff] at h ⊢
  intro cursor hcursor
  unfold File.createCursor at hcursor
  cases hc : f.caughtUp with
  | none =>
    rw [hc, Option.none_or] at hcursor
    cases hcursor
    rfl
  | some standing =>
    rw [hc, Option.some_or] at hcursor
    exact h cursor (hc.trans hcursor)

theorem Truthful.beside (h : Truthful project logs f) (hbeside : f.beside store = true)
    (hstate : f.rebuild = some state) : FoldedTo project (logs store) f.folded state.position := by
  obtain ⟨c, store', hc, hfolded⟩ := h.rebuild state hstate
  obtain rfl : store' = store := Option.some.inj (beside_iff.1 hbeside _ hc)
  exact hfolded

theorem cut_frame (reading : Reading) (f : File) (store : String) (p : Page)
    (extracted : Extracted) : (f.cut reading store p extracted).1.rebuild = f.rebuild ∧
      ∀ other, (f.cut reading store p extracted).1.beside other = f.beside other := by
  rcases cut_cases reading f store p extracted with ⟨a, heq, -⟩ |
    ⟨c, folded, -, hcursor, -, -, -, -, heq⟩
  · rw [heq]
    exact ⟨rfl, fun _ => rfl⟩
  · rw [heq]
    refine ⟨rfl, fun other => ?_⟩
    unfold File.beside
    rw [hcursor]
    rfl

/-! ### Seeding -/

section
variable {s : Store} {stampOf : Nat → Option SystemTime} {logHead : Option Nat} {now : SystemTime}

theorem foldedTo_seed (hrebuild : f.rebuild = none)
    (hseed : f.seedPosition (livePositions project s) stampOf now = some c) :
    FoldedTo project s f.folded c := by
  obtain ⟨hwhole, rfl⟩ := (seedPosition_eq hrebuild).1 hseed
  cases hh : f.folded.highestApplied with
  | none => exact foldedTo_zero
  | some h =>
    have hheld : {p | f.folded.hasApplied p = true} = {p | p ∈ f.folded.applied} :=
      Set.ext fun p => Std.ExtTreeSet.contains_iff_mem
    have hfollowed := followed_seedAt
      (Store.sorted_readLivePositions s (runPrefix project) runStream) f.folded.hasApplied h
      fun p hp => Store.readLivePositions_pos hp
    rw [hheld] at hfollowed
    refine ⟨seedAt_le.trans ?_, hfollowed⟩
    rcases hwhole with ⟨hempty, -⟩ | ⟨h', head, hh', hhead, hle, -⟩
    · rw [highestApplied_eq_none.2 hempty] at hh
      cases hh
    · rw [hh, Option.some.injEq] at hh'
      exact (hh' ▸ hle).trans (live_le (List.mem_of_getLast? hhead))

/-- A seeding writes nothing, or the cursor it finds. -/
theorem seedCursor_writes (f : File) (store : String) (live : List Nat)
    (stampOf : Nat → Option SystemTime) (logHead : Option Nat) (now : SystemTime) :
    (f.seedCursor store live stampOf logHead now).1 = f ∨ ∃ c, f.caughtUp = none ∧
      f.rebuild = none ∧ f.seedPosition live stampOf now = some c ∧
      (f.seedCursor store live stampOf logHead now).1 =
        { f with caughtUp := some ⟨c, some store⟩ } := by
  unfold File.seedCursor
  cases hc : f.caughtUp with
  | some cursor => exact Or.inl rfl
  | none =>
    dsimp only
    split
    · exact Or.inl rfl
    · next hcurrent =>
      rw [Bool.or_eq_true, not_or, Option.not_isSome_iff_eq_none] at hcurrent
      split
      · next c hseed =>
        refine Or.inr ⟨c, rfl, hcurrent.2, hseed, ?_⟩
        unfold File.createCursor
        rw [hc]
        rfl
      · exact Or.inl rfl

theorem truthful_seed (h : Truthful project logs f) (stampOf : Nat → Option SystemTime)
    (logHead : Option Nat) (now : SystemTime) : Truthful project logs
      (f.seedCursor store (livePositions project (logs store)) stampOf logHead now).1 := by
  rcases seedCursor_writes f store (livePositions project (logs store)) stampOf logHead now with
    heq | ⟨c, -, hrebuild, hseed, heq⟩
  · rwa [heq]
  · rw [heq]
    refine ⟨fun c' store' hc' => ?_, fun state hstate => ?_⟩
    · cases hc'
      exact foldedTo_seed hrebuild hseed
    · rw [show f.rebuild = some state from hstate] at hrebuild
      cases hrebuild

theorem beside_seed {live : List Nat}
    (h : (f.seedCursor store live stampOf logHead now).2 = false) :
    (f.seedCursor store live stampOf logHead now).1.beside store = true := by
  rcases seedCursor_writes f store live stampOf logHead now with heq | ⟨c, -, -, -, heq⟩
  · rw [heq, beside_iff]
    intro cursor hcursor
    unfold File.seedCursor at h
    rw [hcursor] at h
    exact bne_eq_false_iff_eq.1 (Bool.or_eq_false_iff.1 h).1
  · rw [heq, beside_iff]
    rintro cursor ⟨⟩
    rfl

end

/-! ### The shadow -/

theorem truthful_empty : Truthful project logs File.empty := ⟨nofun, nofun⟩

section
variable (hopen : f = .empty ∨ f.resumable store = true)
include hopen

theorem openShadow_rebuild :
    (f.openShadow store).rebuild = some (f.rebuild.getD .new) ∧
      (f.openShadow store).beside store = true := by
  refine ⟨rfl, ?_⟩
  have hbeside : f.beside store = true := by
    rcases hopen with rfl | hresumable
    · rfl
    · exact (Bool.and_eq_true_iff.1 hresumable).2
  exact beside_createCursor hbeside _

theorem truthful_openShadow (h : Truthful project logs f) :
    Truthful project logs (f.openShadow store) := by
  rcases hopen with rfl | hresumable
  · refine ⟨fun c store' hc => ?_, fun state hstate => ?_⟩
    · cases hc
      exact foldedTo_zero
    · cases hstate
      exact ⟨0, store, rfl, foldedTo_zero⟩
  · unfold File.resumable at hresumable
    rw [Bool.and_eq_true, Bool.and_eq_true] at hresumable
    obtain ⟨state, hstate⟩ := Option.isSome_iff_exists.1 hresumable.1.1
    obtain ⟨c, store', hc, hfolded⟩ := h.rebuild state hstate
    have hcursor : (f.openShadow store).caughtUp = f.caughtUp := by
      show f.caughtUp.or _ = f.caughtUp
      rw [hc]
      rfl
    have hopened : (f.openShadow store).rebuild = f.rebuild := by
      show some (f.rebuild.getD .new) = f.rebuild
      rw [hstate]
      rfl
    refine ⟨fun c' store'' hc' => h.caughtUp c' store'' (hcursor.symm.trans hc'),
      fun state' hstate' => ?_⟩
    obtain ⟨c', store'', hc', hfolded'⟩ := h.rebuild state' (hopened.symm.trans hstate')
    exact ⟨c', store'', hcursor.trans hc', hfolded'⟩

end

theorem refold_writes (h : f.refold reading part extracted gather = some (g, true)) :
    ∃ folded, Grows f.folded folded ∧ (∀ e ∈ part, e.position ∈ folded.applied) ∧
      g = { f with
        folded := folded
        rebuild := f.rebuild.map fun state =>
          (if gather then state.gather part else state).set (partEnd part) } := by
  unfold File.refold at h
  split at h
  · cases h
  · cases h
  · next folded hdecided =>
    cases h
    obtain ⟨hgrows, hread, -⟩ := decidePart_some hdecided
    exact ⟨folded.settled, hgrows.trans (grows_settled folded), hread rfl, rfl⟩

theorem truthful_refold (h : Truthful project logs f) (hbeside : f.beside store = true)
    (hstate : f.rebuild = some state) {head : Nat} {parts : List (List Event)}
    (hhanded : Handed project (logs store) state.position head (part :: parts))
    (hrefold : f.refold reading part extracted gather = some (g, true)) :
    Truthful project logs g ∧ g.beside store = true ∧ ∃ state', g.rebuild = some state' ∧
      state'.position = partEnd part := by
  obtain ⟨folded, hgrows, hmem, rfl⟩ := refold_writes hrefold
  have hposition : ((if gather then state.gather part else state).set (partEnd part)).position =
      partEnd part := by
    show max (if gather then state.gather part else state).position (partEnd part) = _
    have hgather : (if gather then state.gather part else state).position = state.position := by
      split <;> rfl
    rw [hgather]
    exact Nat.max_eq_right (Nat.le_of_lt hhanded.partEnd_past.1)
  have hadvance := (h.beside hbeside hstate).advance hhanded.first le_rfl
    (hhanded.partEnd_past.2.trans hhanded.issued) hgrows fun q hq => by
      obtain ⟨e, he, rfl⟩ := List.mem_map.1 hq
      exact hmem e he
  rw [Nat.max_eq_right (Nat.le_of_lt hhanded.partEnd_past.1)] at hadvance
  refine ⟨⟨fun c store' hc => (h.caughtUp c store' hc).grow hgrows, fun state' hstate' => ?_⟩,
    (beside_of_eq rfl).trans hbeside, _, by rw [hstate, Option.map_some], hposition⟩
  obtain ⟨c, store', hc, -⟩ := h.rebuild state hstate
  obtain rfl : store' = store := Option.some.inj (beside_iff.1 hbeside _ hc)
  have heq : f.rebuild.map (fun state =>
      (if gather then state.gather part else state).set (partEnd part)) = some state' := hstate'
  rw [hstate, Option.map_some] at heq
  cases heq
  refine ⟨c, store', hc, ?_⟩
  rw [hposition]
  exact hadvance

/-- The prune's counts aside, the copy carries the shadow's rebuild state. -/
theorem prunedCopy_rebuild (hstate : f.rebuild = some state) :
    ∃ state', f.prunedCopy.rebuild = some state' ∧ state'.position = state.position := by
  obtain ⟨pruned, hpruned⟩ : ∃ pruned, f.prunedCopy.rebuild =
      f.rebuild.map fun state => { state with pruned := pruned } := ⟨_, rfl⟩
  rw [hstate, Option.map_some] at hpruned
  exact ⟨_, hpruned, rfl⟩

theorem truthful_prunedCopy (h : Truthful project logs f) : Truthful project logs f.prunedCopy := by
  have hgrows : Grows f.folded f.prunedCopy.folded :=
    ((Grows.refl f.folded).tables _).trans (grows_settled _)
  refine ⟨fun c store hc => (h.caughtUp c store hc).grow hgrows, fun state hstate => ?_⟩
  obtain ⟨before, hbefore, rfl⟩ := Option.map_eq_some_iff.1 hstate
  obtain ⟨c, store, hc, hfolded⟩ := h.rebuild before hbefore
  exact ⟨c, store, hc, hfolded.grow hgrows⟩

theorem truthful_finish (h : Truthful project logs f) (hbeside : f.beside store = true) :
    Truthful project logs (f.finish store) := by
  refine ⟨fun c store' hc => ?_, nofun⟩
  have hfolded : FoldedTo project (logs store) f.folded
      ((f.rebuild.map RebuildState.position).getD 0) := by
    cases hstate : f.rebuild with
    | none => exact foldedTo_zero
    | some state => exact h.beside hbeside hstate
  obtain ⟨through, hthrough⟩ : ∃ t, (f.rebuild.map RebuildState.position).getD 0 = t := ⟨_, rfl⟩
  have hcursor : (f.finish store).caughtUp = (f.caughtUp.or (some ⟨through, some store⟩)).map
      fun c => { c with position := max c.position through } := by
    rw [← hthrough]
    rfl
  rw [hthrough] at hfolded
  rw [hcursor] at hc
  cases hstanding : f.caughtUp with
  | none =>
    rw [hstanding, Option.none_or, Option.map_some] at hc
    cases hc
    exact hfolded.both hfolded
  | some cursor =>
    rw [hstanding, Option.some_or, Option.map_some] at hc
    obtain ⟨at_, recorded⟩ := cursor
    cases hc
    obtain rfl : store' = store := Option.some.inj (beside_iff.1 hbeside _ hstanding)
    exact (h.caughtUp at_ store' hstanding).both hfolded

end

/-! ## Runs -/

section
variable {reading : Reading} {w : World}

/-- The rebuild under way folds the log its file's cursor is recorded beside, from where that file
stands. -/
structure Rebuilds (project : String) (w : World) (rb : Rebuilding) : Prop where
  beside : (w.target rb).beside rb.store = true
  handed : ∃ state, (w.target rb).rebuild = some state ∧
    Handed project (w.logs rb.store) state.position rb.head rb.parts

theorem target_shadow {rb : Rebuilding} (h : rb.stage = .shadow) :
    w.target rb = w.shadow.getD .empty := by
  unfold World.target
  rw [h]

theorem target_file {rb : Rebuilding} (h : rb.stage ≠ .shadow) : w.target rb = w.file := by
  unfold World.target
  cases hstage : rb.stage with
  | shadow => exact absurd hstage h
  | swapped => rfl
  | tail => rfl

structure Sound (project : String) (w : World) : Prop where
  ordered : ∀ store, (w.logs store).Ordered
  file : Truthful project w.logs w.file
  shadow : ∀ shadow, w.shadow = some shadow → Truthful project w.logs shadow
  pages : ∀ c k events, w.callers c = some k → k.page = some events →
    PageFrom project (w.logs k.store) ⟨k.from_, events⟩
  seeded : ∀ store, w.seeded = some (store, false) → w.file.beside store = true
  alone : w.seeded.isSome → w.rebuilding = none
  rebuilding : ∀ rb, w.rebuilding = some rb → Rebuilds project w rb

/-- A setup whose seeding was contended pays from the log the file's cursor is recorded beside. -/
def Beside (w : World) : Act → Prop
  | .unseeded store => w.file.beside store = true
  | _ => True

variable {logs : String → Store}

theorem sound_new (hlogs : ∀ store, (logs store).Ordered) (folded : Folded) (rule : Int) :
    Sound project (World.new logs folded rule) :=
  ⟨hlogs, ⟨nofun, nofun⟩, nofun, nofun, nofun, fun _ => rfl, nofun⟩

section
variable (h : Sound project w)
include h

theorem Sound.later {logs : String → Store} (hordered : ∀ store, (logs store).Ordered)
    (hlater : ∀ store, Later project (w.logs store) (logs store)) :
    Sound project { w with logs := logs } := by
  refine ⟨hordered, h.file.later hlater, fun shadow hshadow =>
    (h.shadow shadow hshadow).later hlater,
    fun c k events hk hpage => (h.pages c k events hk hpage).later (hlater k.store),
    h.seeded, h.alone,
    fun rb hrb => ?_⟩
  obtain ⟨state, hstate, hhanded⟩ := (h.rebuilding rb hrb).handed
  exact ⟨(h.rebuilding rb hrb).beside, state, hstate, hhanded.later (hlater rb.store)⟩

theorem Sound.log (store : String) (call : Call) :
    Sound project { w with logs := Function.update w.logs store ((w.logs store).exec call) } := by
  have hupdated : ∀ other, (Function.update w.logs store ((w.logs store).exec call) other).Ordered ∧
      Later project (w.logs other)
        (Function.update w.logs store ((w.logs store).exec call) other) := by
    intro other
    by_cases heq : other = store
    · subst heq
      rw [Function.update_self]
      exact ⟨Store.ordered_exec (h.ordered other) call, later_exec (h.ordered other) call⟩
    · rw [Function.update_of_ne heq]
      exact ⟨h.ordered other, Later.refl⟩
  exact h.later (fun other => (hupdated other).1) fun other => (hupdated other).2

/-- The calls change hands of the file nowhere: only what each holds counts. -/
theorem Sound.withCallers {callers : Nat → Option Caller} (answers : Nat → Option CatchUp)
    (hcallers : ∀ c k events, callers c = some k → k.page = some events →
      PageFrom project (w.logs k.store) ⟨k.from_, events⟩) :
    Sound project { w with callers := callers, answers := answers } := by
  refine ⟨h.ordered, h.file, h.shadow, hcallers, h.seeded, h.alone, fun rb hrb => ?_⟩
  exact ⟨(h.rebuilding rb hrb).beside, (h.rebuilding rb hrb).handed⟩

theorem Sound.answer (c : Nat) (a : CatchUp) : Sound project (w.answer c a) := by
  refine h.withCallers _ fun c' k events hk hpage => ?_
  by_cases heq : c' = c
  · rw [heq, Function.update_self] at hk
    cases hk
  · rw [Function.update_of_ne heq] at hk
    exact h.pages c' k events hk hpage

variable {k : Caller} {events : List Event}

theorem Sound.hold (c : Nat) (hpage : ∀ events, k.page = some events →
    PageFrom project (w.logs k.store) ⟨k.from_, events⟩) : Sound project (w.hold c k) := by
  refine h.withCallers _ fun c' k' events hk hpage' => ?_
  by_cases heq : c' = c
  · rw [heq, Function.update_self] at hk
    cases hk
    exact hpage events hpage'
  · rw [Function.update_of_ne heq] at hk
    exact h.pages c' k' events hk hpage'

/-- A writer beside a rebuild leaves the file's rebuild state and the log of its cursor. -/
theorem Sound.write {f : File} (hkept : Truthful project w.logs f)
    (hrebuild : f.rebuild = w.file.rebuild)
    (hbeside : ∀ store, f.beside store = w.file.beside store) :
    Sound project { w with file := f } := by
  refine ⟨h.ordered, hkept, h.shadow, h.pages, fun store hseeded => ?_, h.alone, fun rb hrb => ?_⟩
  · exact (hbeside store).trans (h.seeded store hseeded)
  · obtain ⟨hb, state, hstate, hhanded⟩ := h.rebuilding rb hrb
    by_cases hstage : rb.stage = .shadow
    · rw [target_shadow hstage] at hb hstate
      exact ⟨by rwa [target_shadow hstage], state, by rwa [target_shadow hstage], hhanded⟩
    · rw [target_file hstage] at hb hstate
      refine ⟨?_, state, ?_, hhanded⟩
      · rw [target_file hstage]
        exact (hbeside rb.store).trans hb
      · rw [target_file hstage]
        exact hrebuild.trans hstate

/-! ### Calls -/

theorem sound_start (c : Nat) (store : String) : Sound project (w.start c store) := by
  unfold World.start
  split
  · exact h.answer _ _
  · exact h.hold _ nofun

theorem sound_readPageOf (c : Nat) (k : Caller) : Sound project (w.readPageOf project c k) := by
  unfold World.readPageOf
  split
  · exact h.answer _ _
  · next events hne =>
    refine h.hold _ fun page hpage => ?_
    cases hpage
    exact pageFrom_readPage hne

theorem sound_extractOf {c : Nat} (hk : w.callers c = some k)
    (reextract : Event → Option (Option (List Event))) :
    Sound project (w.extractOf reading c k events reextract) := by
  unfold World.extractOf
  split
  · split
    · exact h.hold _ fun page hpage => h.pages c k page hk hpage
    · exact h.answer _ _
  · exact h

theorem sound_cutOf {c : Nat} (hk : w.callers c = some k) (hpage : k.page = some events)
    (extracted : Extracted) : Sound project (w.cutOf reading c k events extracted) := by
  have hframe := cut_frame reading w.file k.store ⟨k.from_, events⟩ extracted
  have hnext :=
    h.write (truthful_cut h.file (h.pages c k events hk hpage) reading extracted) hframe.1
    hframe.2
  unfold World.cutOf
  dsimp only
  split
  · exact hnext.answer _ _
  · exact hnext.answer _ _
  · exact hnext.answer _ _
  · split
    · exact hnext.answer _ _
    · exact hnext.hold _ nofun
  · split
    · exact hnext.answer _ _
    · exact hnext.hold _ fun page hheld => h.pages c k page hk hheld

/-! ### The holder of the rebuild lock -/

theorem Sound.holder {file : File} {shadow : Option File} {seeded : Option (String × Bool)}
    {rebuilding : Option Rebuilding} (hfile : Truthful project w.logs file)
    (hshadow : ∀ f, shadow = some f → Truthful project w.logs f)
    (hseeded : ∀ store, seeded = some (store, false) → file.beside store = true)
    (halone : seeded.isSome → rebuilding = none)
    (hrebuilding : ∀ rb, rebuilding = some rb →
      Rebuilds project { w with file := file, shadow := shadow } rb) :
    Sound project { w with
      file := file, shadow := shadow, seeded := seeded, rebuilding := rebuilding } := by
  refine ⟨h.ordered, hfile, hshadow, h.pages, hseeded, halone, fun rb hrb => ?_⟩
  exact ⟨(hrebuilding rb hrb).beside, (hrebuilding rb hrb).handed⟩

theorem sound_seed (store : String) (logHead : Option Nat) (now : SystemTime)
    (hrebuilding : w.rebuilding = none) : Sound project (w.seed project store logHead now) := by
  refine h.holder (truthful_seed h.file _ _ _) h.shadow (fun store' hseeded => ?_)
    (fun _ => hrebuilding) fun rb hrb => ?_
  · rw [Option.some.injEq, Prod.mk.injEq] at hseeded
    rw [← hseeded.1]
    exact beside_seed hseeded.2
  · rw [hrebuilding] at hrb
    cases hrb

/-- A rebuild that begins folds the log it pays from, whatever file it folds into. -/
theorem sound_beginRebuild {store : String} {lost : Bool}
    (hbeside : lost = false → w.file.beside store = true) (hseeded : w.seeded = none) :
    Sound project (w.beginRebuild project store lost) := by
  have hopened : ∀ f : File, Truthful project w.logs f → (f = .empty ∨ f.resumable store = true) →
      Sound project { w with
        shadow := some (f.openShadow store)
        rebuilding := some ⟨store, .shadow, sourceParts project (w.logs store)
          (((f.openShadow store).rebuild.map RebuildState.position).getD 0),
          (w.logs store).seq, none, false⟩ } := by
    intro f hkept hopen
    obtain ⟨hstate, hbeside⟩ := openShadow_rebuild hopen
    refine h.holder h.file (fun g hg => ?_) (by rw [hseeded]; nofun) (by rw [hseeded]; nofun)
      fun rb hrb => ?_
    · cases hg
      exact truthful_openShadow hopen hkept
    · cases hrb
      refine ⟨hbeside, _, hstate, ?_⟩
      rw [hstate]
      exact handed_sourceParts _
  unfold World.beginRebuild
  cases hshadow : w.shadow with
  | some shadow =>
    dsimp only
    rw [Option.isSome_some, Bool.or_true, if_pos rfl, Option.getD_some]
    cases hresumable : shadow.resumable store with
    | true => exact hopened shadow (h.shadow shadow hshadow) (Or.inr hresumable)
    | false => exact hopened .empty truthful_empty (Or.inl rfl)
  | none =>
    dsimp only
    rw [Option.isSome_none, Bool.or_false]
    split
    · exact hopened .empty truthful_empty (Or.inl rfl)
    · next howed =>
      rw [Bool.or_eq_true, not_or, Bool.not_eq_true] at howed
      split
      · next state hstate =>
        -- a tail alone: the file's cursor is of the log that is folded
        refine h.holder h.file nofun (by rw [hseeded]; nofun)
          (by rw [hseeded]; nofun) fun rb hrb => ?_
        cases hrb
        exact ⟨hbeside howed.1, state, hstate, handed_sourceParts _⟩
      · exact h

theorem Sound.target (rb : Rebuilding) : Truthful project w.logs (w.target rb) := by
  by_cases hstage : rb.stage = .shadow
  · rw [target_shadow hstage]
    cases hshadow : w.shadow with
    | none => exact truthful_empty
    | some shadow => exact h.shadow shadow hshadow
  · rw [target_file hstage]
    exact h.file

theorem sound_die : Sound project { w with seeded := none, rebuilding := none } :=
  h.holder h.file h.shadow nofun nofun nofun

section
variable {rb : Rebuilding} (hrb : w.rebuilding = some rb)
include hrb

theorem Sound.unseeded : w.seeded = none := by
  cases hs : w.seeded with
  | none => rfl
  | some s =>
    have hnone := h.alone (by rw [hs]; rfl)
    rw [hrb] at hnone
    cases hnone

theorem Sound.rebuilder {file : File} {shadow : Option File} {rebuilding : Option Rebuilding}
    (hfile : Truthful project w.logs file)
    (hshadow : ∀ f, shadow = some f → Truthful project w.logs f)
    (hrebuilding : ∀ rb, rebuilding = some rb →
      Rebuilds project { w with file := file, shadow := shadow } rb) :
    Sound project { w with file := file, shadow := shadow, rebuilding := rebuilding } := by
  have hseeded := h.unseeded hrb
  exact h.holder hfile hshadow (by rw [hseeded]; nofun) (by rw [hseeded]; nofun) hrebuilding

theorem Sound.goes {rebuilding : Option Rebuilding} (hgoes : ∀ rb', rebuilding = some rb' →
    rb'.store = rb.store ∧ rb'.stage = rb.stage ∧ rb'.parts = rb.parts ∧ rb'.head = rb.head) :
    Sound project { w with rebuilding := rebuilding } := by
  refine h.rebuilder hrb h.file h.shadow fun rb' hrb' => ?_
  obtain ⟨hstore, hstage, hparts, hhead⟩ := hgoes rb' hrb'
  obtain ⟨hbeside, state, hstate, hhanded⟩ := h.rebuilding rb hrb
  have htarget : World.target { w with file := w.file, shadow := w.shadow } rb' = w.target rb := by
    unfold World.target
    rw [hstage]
  refine ⟨?_, state, ?_, ?_⟩
  · rw [htarget, hstore]
    exact hbeside
  · rw [htarget]
    exact hstate
  · rw [hstore, hhead, hparts]
    exact hhanded

theorem sound_gatherOf (reextract : Event → Option (Option (List Event))) :
    Sound project (w.gatherOf reading rb reextract) := by
  unfold World.gatherOf
  split
  · split
    · exact h.goes hrb fun rb' hrb' => by cases hrb'; exact ⟨rfl, rfl, rfl, rfl⟩
    · exact h.goes hrb nofun
  · exact h

theorem sound_refoldOf {part : List Event} {parts : List (List Event)}
    (hparts : rb.parts = part :: parts) (extracted : Extracted) :
    Sound project (w.refoldOf reading rb part parts extracted) := by
  unfold World.refoldOf
  split
  · exact h.goes hrb nofun
  · split
    · exact h.goes hrb nofun
    · exact h.goes hrb fun rb' hrb' => by cases hrb'; exact ⟨rfl, rfl, rfl, rfl⟩
  · next g hrefold =>
    obtain ⟨hbeside, state, hstate, hhanded⟩ := h.rebuilding rb hrb
    rw [hparts] at hhanded
    obtain ⟨hkept, hbeside', state', hstate', hposition⟩ :=
      truthful_refold (h.target rb) hbeside hstate hhanded hrefold
    have hrest := hhanded.rest
    rw [← hposition] at hrest
    by_cases hstage : rb.stage = .shadow
    · have hset : w.setTarget rb g = { w with shadow := some g } := by
        unfold World.setTarget
        rw [hstage]
      rw [hset]
      refine h.rebuilder hrb h.file (fun f hf => ?_) fun rb' hrb' => ?_
      · cases hf
        exact hkept
      · cases hrb'
        have htarget : World.target { w with file := w.file, shadow := some g }
            { rb with parts := parts, extracted := none, retried := false } = g :=
          target_shadow hstage
        exact ⟨by rw [htarget]; exact hbeside', state', by rw [htarget]; exact hstate', hrest⟩
    · have hset : w.setTarget rb g = { w with file := g } := by
        unfold World.setTarget
        cases hs : rb.stage with
        | shadow => exact absurd hs hstage
        | swapped => rfl
        | tail => rfl
      rw [hset]
      refine h.rebuilder hrb hkept h.shadow fun rb' hrb' => ?_
      cases hrb'
      have htarget : World.target { w with file := g, shadow := w.shadow }
          { rb with parts := parts, extracted := none, retried := false } = g :=
        target_file hstage
      exact ⟨by rw [htarget]; exact hbeside', state', by rw [htarget]; exact hstate', hrest⟩

theorem sound_swap {shadow : File} (hshadow : w.shadow = some shadow)
    (hstage : rb.stage = .shadow) :
    Sound project { w with
      file := shadow.prunedCopy, rebuilding := some { rb with stage := .swapped } } := by
  obtain ⟨hbeside, state, hstate, hhanded⟩ := h.rebuilding rb hrb
  rw [target_shadow hstage, hshadow, Option.getD_some] at hbeside hstate
  refine h.rebuilder hrb (truthful_prunedCopy (h.shadow shadow hshadow)) h.shadow
    fun rb' hrb' => ?_
  cases hrb'
  obtain ⟨state', hstate', hposition⟩ := prunedCopy_rebuild hstate
  rw [← hposition] at hhanded
  exact ⟨hbeside, state', hstate', hhanded⟩

theorem sound_unshadow {state : RebuildState} (hstate : w.file.rebuild = some state)
    (hstage : rb.stage = .swapped) :
    Sound project { w with
      shadow := none
      rebuilding := some ⟨rb.store, .tail, sourceParts project (w.logs rb.store) state.position,
        (w.logs rb.store).seq, none, false⟩ } := by
  have hbeside := (h.rebuilding rb hrb).beside
  rw [target_file (by rw [hstage]; nofun)] at hbeside
  refine h.rebuilder hrb h.file nofun fun rb' hrb' => ?_
  cases hrb'
  exact ⟨hbeside, state, hstate, handed_sourceParts _⟩

theorem sound_finish (hstage : rb.stage = .tail) :
    Sound project { w with file := w.file.finish rb.store, rebuilding := none } := by
  have hbeside := (h.rebuilding rb hrb).beside
  rw [target_file (by rw [hstage]; nofun)] at hbeside
  exact h.rebuilder hrb (truthful_finish h.file hbeside) h.shadow nofun

end

theorem sound_step (act : Act) (hbeside : Beside w act) :
    Sound project (step project reading w act) := by
  cases act with
  | log store call => exact h.log store call
  | start c store =>
    dsimp only [step]
    split
    · exact h
    · exact sound_start h c store
  | page c =>
    dsimp only [step]
    split
    · next k hk =>
      split
      · exact h
      · exact sound_readPageOf h c k
    · exact h
  | extract c reextract =>
    dsimp only [step]
    split
    · next hk => exact sound_extractOf h hk reextract
    · exact h
  | cut c =>
    dsimp only [step]
    split
    · next k hk =>
      split
      · next events hpage =>
        split
        · next extracted _ => exact sound_cutOf h hk hpage extracted
        · exact h
      · exact h
    · exact h
  | contended c =>
    dsimp only [step]
    split
    · split
      · exact h.answer _ _
      · exact h
    · exact h
  | broken c =>
    dsimp only [step]
    split
    · split
      · exact h
      · exact h.answer _ _
    · exact h
  | fold calls =>
    dsimp only [step]
    split
    · exact h
    · exact h.write (h.file.grow (transact_grows _ calls)) rfl fun _ => rfl
  | prune ids before =>
    exact h.write (h.file.grow (((Grows.refl _).tables _).trans (grows_settled _))) rfl fun _ => rfl
  | seed store logHead now =>
    dsimp only [step]
    split
    · exact h
    · next hfree =>
      rw [Bool.or_eq_true, not_or, Option.not_isSome_iff_eq_none,
        Option.not_isSome_iff_eq_none] at hfree
      exact sound_seed h store logHead now hfree.2
  | unseeded store =>
    dsimp only [step]
    split
    · exact h
    · next hfree =>
      rw [Bool.or_eq_true, not_or, Option.not_isSome_iff_eq_none,
        Option.not_isSome_iff_eq_none] at hfree
      refine h.holder h.file h.shadow (fun store' hs => ?_) (fun _ => hfree.2) h.rebuilding
      cases hs
      exact hbeside
  | rebuild =>
    dsimp only [step]
    split
    · next store lost hs =>
      have hfree : Sound project { w with seeded := none } :=
        h.holder h.file h.shadow (fun _ hs => by cases hs) (fun hs => by cases hs) h.rebuilding
      refine sound_beginRebuild hfree ?_ rfl
      rintro rfl
      exact h.seeded store hs
    · exact h
  | gather reextract =>
    dsimp only [step]
    split
    · next rb hrb =>
      split
      · exact h
      · exact sound_gatherOf h hrb reextract
    · exact h
  | refold =>
    dsimp only [step]
    split
    · next rb hrb =>
      split
      · exact h
      · exact h
      · next part parts hparts _ =>
        split
        · next extracted _ => exact sound_refoldOf h hrb hparts extracted
        · exact h
    · exact h
  | swap =>
    dsimp only [step]
    split
    · next rb shadow hrb hshadow =>
      split
      · next hready => exact sound_swap h hrb hshadow hready.1
      · exact h
    · exact h
  | unshadow =>
    dsimp only [step]
    split
    · next rb state hrb hstate =>
      split
      · next hstage => exact sound_unshadow h hrb hstate hstage
      · exact h
    · exact h
  | finish =>
    dsimp only [step]
    split
    · next rb hrb =>
      split
      · next hready => exact sound_finish h hrb hready.1
      · exact h
    · exact h
  | die => exact sound_die h

end

theorem sound_run (hlogs : ∀ store, (logs store).Ordered) (folded : Folded) (rule : Int)
    {acts : List Act}
    (hacts : Along (step project reading) Beside (World.new logs folded rule) acts) :
    Sound project (run (step project reading) (World.new logs folded rule) acts) :=
  run_invariant_along (I := Sound project) (fun _ act hact hsound => sound_step hsound act hact)
    hacts (sound_new hlogs folded rule)

/-- Whatever appenders, catch-ups, seedings and rebuilds do beside one another, and whatever is
appended to the logs or migrated, every live position of the log up to the cursor is in the
ledger. -/
theorem caught_up_whole (project : String) (reading : Reading) (logs : String → Store)
    (hlogs : ∀ store, (logs store).Ordered) (folded : Folded) (rule : Int) (acts : List Act)
    (hacts : Along (step project reading) Beside (World.new logs folded rule) acts) :
    let w := run (step project reading) (World.new logs folded rule) acts
    ∀ c store, w.file.caughtUp = some ⟨c, some store⟩ →
      c ≤ (w.logs store).seq ∧
        ∀ p ∈ livePositions project (w.logs store), p ≤ c → p ∈ w.file.folded.applied := by
  intro w c store hc
  have hfolded := (sound_run hlogs folded rule hacts).file.caughtUp c store hc
  exact ⟨hfolded.issued, hfolded.followed⟩

def notedReading : Reading := ⟨fun _ => none, fun _ => none, fun _ _ => ""⟩

/-- An event no fold reads. -/
def notedEvent (id : String) : Event := Event.new (id, 0) "Noted" (.json .null)

def noteTwo : Act := .log "db" (.append "proj-p-run" .any [notedEvent "a", notedEvent "b"] 1)

/-- The run of a project over a log that begins empty. -/
def notedRun (acts : List Act) : World :=
  run (step "p" notedReading) (World.new (fun _ => .empty) .empty 5) acts

/-- The log grows under a page already read. -/
def followedRun : List Act :=
  [.seed "db" none 0, noteTwo, .start 0 "db", .page 0,
    .log "db" (.append "proj-p-run" .any [notedEvent "c"] 2), .cut 0]

theorem caught_up_whole_grown : 2 ∈ (notedRun followedRun).file.folded.applied :=
  (caught_up_whole "p" notedReading (fun _ => .empty) (fun _ => Store.ordered_empty) .empty 5
    followedRun ⟨trivial, trivial, trivial, trivial, trivial, trivial, trivial⟩ 2 "db"
    (by decide +kernel)).2 2 (by decide +kernel) le_rfl

end

end

end Rigger.Graph
