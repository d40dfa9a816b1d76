import Mathlib.Algebra.BigOperators.Group.Finset.Basic
import Rigger.Domain.Metrics
import Rigger.Domain.Run

/-!
# How long spawns took (`rigger-domain/src/metrics.rs`)

The fold numbers the windows of runs as it passes the boundaries and files each request under the
window it meets it in; the results are read afterwards, from the slices the boundaries cut.  Both
are the windows of `windowAt`, where run attribution places events too, so a spawn is timed by a
request and a result of one window or counted unpaired (`project_spawnTiming`).
-/

namespace Rigger.Metrics

open Lib Spawn

/-! ## Requests -/

/-- When the event requests the spawn. -/
def requestAt (id : String) (e : Event) : Option SystemTime :=
  (requestOf e).bind fun r => if r.id = id then some e.recordedAt else none

theorem requestAt_of_ne {e : Event} (h : e.type_ ≠ typeSpawnRequested) (id : String) :
    requestAt id e = none := by
  rw [requestAt, requestOf, if_neg h, Option.bind_none]

/-- A request stands in the window it is met in, unless one of its id stands there already. -/
theorem Windows.getElem?_step (w : Windows) (i : Nat) (e : Event) (k : SpawnKey) :
    (w.step i e).requestedAt[k]? = w.requestedAt[k]?.or
      (if w.starts.length - 1 = k.window then requestAt k.id e else none) := by
  by_cases htype : e.type_ = typeSpawnRequested
  · have hopens : opensWindow e = false := opensWindow_eq_false (by rw [htype]; decide)
    rw [step, hopens, if_neg Bool.false_ne_true, if_pos htype, request, requestAt, requestOf,
      if_pos htype]
    cases Request.decode e.data with
    | none => rw [Option.elim_none, Option.bind_none, ite_self, Option.or_none]
    | some req =>
      rw [Option.elim_some, Option.bind_some, Std.ExtTreeMap.getElem?_insertIfNew]
      by_cases hkey : (⟨w.starts.length - 1, req.id⟩ : SpawnKey) = k
      · subst hkey
        rw [if_pos rfl, if_pos rfl]
        by_cases hmem : ⟨w.starts.length - 1, req.id⟩ ∈ w.requestedAt
        · obtain ⟨t, ht⟩ := Option.isSome_iff_exists.1
            (Std.ExtTreeMap.mem_iff_isSome_getElem?.1 hmem)
          rw [if_neg fun h => h.2 hmem, ht, Option.some_or]
        · rw [if_pos ⟨Std.ReflCmp.compare_self, hmem⟩, Std.ExtTreeMap.getElem?_eq_none hmem,
            Option.none_or]
      · rw [if_neg fun h => hkey (Std.LawfulEqCmp.compare_eq_iff_eq.1 h.1)]
        split
        · next hw => rw [if_neg fun hid => hkey (by rw [hw, hid]), Option.or_none]
        · rw [Option.or_none]
  · rw [requestAt_of_ne htype, ite_self, Option.or_none, step, if_neg htype]
    split <;> rfl

section
variable (line : String → Option Json)

theorem starts_fold (events : List Event) :
    (fold line events).windows.starts = openings opensWindow events := by
  induction events using List.reverseRecOn with
  | nil => rfl
  | append_singleton events e ih =>
    rw [fold_concat, (step_parts ..).1, openings_concat, ← ih, Windows.step]
    cases hopens : opensWindow e with
    | true => rfl
    | false =>
      rw [if_neg Bool.false_ne_true, if_neg Bool.false_ne_true, List.append_nil]
      split
      · unfold Windows.request
        cases Request.decode e.data <;> rfl
      · rfl

theorem getElem?_requestedAt (events : List Event) (k : SpawnKey) :
    (fold line events).windows.requestedAt[k]? =
      first (requestAt k.id) (windowSlice opensWindow events k.window) := by
  induction events using List.reverseRecOn with
  | nil => exact Std.ExtTreeMap.getElem?_empty
  | append_singleton events e ih =>
    have hstarts : (fold line events).windows.starts.length - 1 = events.countP opensWindow := by
      rw [starts_fold, length_openings, Nat.add_sub_cancel]
    rw [fold_concat, (step_parts ..).1, Windows.getElem?_step, ih, hstarts, windowSlice_concat]
    cases hread : requestAt k.id e with
    | none =>
      rw [ite_self, Option.or_none]
      split
      · rw [first_concat, hread, Option.or_none]
      · rw [List.append_nil]
    | some t =>
      -- a request opens no window
      have hopens : opensWindow e = false := by
        refine opensWindow_eq_false fun htype => ?_
        rw [requestAt_of_ne (by rw [htype]; decide)] at hread
        cases hread
      have hcount : (events ++ [e]).countP opensWindow = events.countP opensWindow := by
        simp [List.countP_append, hopens]
      rw [hcount]
      split
      · rw [first_concat, hread]
      · rw [Option.or_none, List.append_nil]

end

/-! ## Results -/

theorem mem_windowResults {events : List Event} {x : SpawnKey × SystemTime} :
    x ∈ ((slices (openings opensWindow events) events).zipIdx.flatMap fun window =>
        (latestResults window.1).toList.map fun result =>
          ((⟨window.2, result.1⟩ : SpawnKey), result.2.recordedAt)) ↔
      ∃ e, (latestResults (windowSlice opensWindow events x.1.window))[x.1.id]? = some e ∧
        e.recordedAt = x.2 := by
  rw [slices_openings, List.mem_flatMap]
  constructor
  · rintro ⟨⟨slice, w⟩, hslice, hx⟩
    obtain ⟨⟨id, e⟩, he, rfl⟩ := List.mem_map.1 hx
    rw [List.mem_zipIdx_iff_getElem?, List.getElem?_map, Option.map_eq_some_iff] at hslice
    obtain ⟨w', hw, rfl⟩ := hslice
    obtain ⟨hlt, hget⟩ := List.getElem?_eq_some_iff.1 hw
    have hsame : w = w' := (List.getElem_range _).symm.trans hget
    subst hsame
    exact ⟨e, Std.ExtTreeMap.mem_toList_iff_getElem?_eq_some.1 he, rfl⟩
  · rintro ⟨e, he, htime⟩
    have hw : x.1.window < events.countP opensWindow + 1 := by
      by_contra hlt
      rw [windowSlice_of_lt _ _ (by omega)] at he
      exact absurd he (by simp [latestResults, collect])
    refine ⟨(windowSlice opensWindow events x.1.window, x.1.window), ?_, ?_⟩
    · rw [List.mem_zipIdx_iff_getElem?, List.getElem?_map, List.getElem?_range hw, Option.map_some]
    · refine List.mem_map.2 ⟨(x.1.id, e), Std.ExtTreeMap.mem_toList_iff_getElem?_eq_some.2 he, ?_⟩
      rw [htime]

theorem getElem?_resultAt (events : List Event) (k : SpawnKey) :
    (resultAt (openings opensWindow events) events)[k]? =
      (latest (resultFor k.id) (windowSlice opensWindow events k.window)).map (·.recordedAt) := by
  rw [resultAt, getElem?_collect, ← getElem?_latestResults]
  have hanswer : ∀ x : SpawnKey × SystemTime, x.1 = k →
      (∃ e, (latestResults (windowSlice opensWindow events x.1.window))[x.1.id]? = some e ∧
        e.recordedAt = x.2) →
      (latestResults (windowSlice opensWindow events k.window))[k.id]?.map (·.recordedAt) =
        some x.2 := by
    rintro x rfl ⟨e, he, htime⟩
    rw [he, Option.map_some, htime]
  cases hresult : (latestResults (windowSlice opensWindow events k.window))[k.id]? with
  | none =>
    refine (latest_eq_none_iff _ _).2 fun x hx => if_neg fun hk => ?_
    have hsome := hanswer x hk (mem_windowResults.1 hx)
    rw [hresult] at hsome
    cases hsome
  | some e =>
    refine latest_eq_of_unique
      (mem_windowResults (x := (k, e.recordedAt)) |>.2 ⟨e, hresult, rfl⟩) (if_pos rfl) ?_
    intro x hx t ht
    obtain ⟨hk, ht⟩ := Option.ite_none_right_eq_some.1 ht
    have hsome := hanswer x hk (mem_windowResults.1 hx)
    rw [hresult, Option.map_some, ht] at hsome
    exact (Option.some.inj hsome).symm

/-! ## Pairs -/

/-- Each spawn a window holds a readable request of. -/
def asked (events : List Event) : Finset SpawnKey :=
  (events.zipIdx.filterMap fun x =>
    (requestOf x.1).map fun r => ⟨windowAt opensWindow events x.2, r.id⟩).toFinset

/-- From its window's first request to its window's latest result. -/
def spawnDuration (events : List Event) (k : SpawnKey) : Option Int :=
  (first (requestAt k.id) (windowSlice opensWindow events k.window)).bind fun requestedAt =>
    (latest (resultFor k.id) (windowSlice opensWindow events k.window)).bind fun result =>
      if requestedAt < result.recordedAt then some (result.recordedAt - requestedAt) else none

/-- The spawns of a role that are timed. -/
def timed (events : List Event) (role : String) : Finset SpawnKey :=
  (asked events).filter fun k => spawnRole k.id = role ∧ (spawnDuration events k).isSome = true

def SpawnTiming.add (t : SpawnTiming) (duration : Int) : SpawnTiming :=
  ⟨t.count + 1, t.total + duration⟩

theorem mem_asked {events : List Event} {k : SpawnKey} : k ∈ asked events ↔
    (first (requestAt k.id) (windowSlice opensWindow events k.window)).isSome = true := by
  have hslice : ∀ e, e ∈ windowSlice opensWindow events k.window ↔
      ∃ x ∈ events.zipIdx, windowAt opensWindow events x.2 = k.window ∧ x.1 = e := by
    intro e
    unfold windowSlice
    simp [and_assoc]
  rw [Option.isSome_iff_ne_none, ne_eq, first_eq_none_iff, asked, List.mem_toFinset,
    List.mem_filterMap]
  simp only [not_forall, hslice, exists_prop]
  constructor
  · rintro ⟨x, hx, hkey⟩
    obtain ⟨r, hr, rfl⟩ := Option.map_eq_some_iff.1 hkey
    refine ⟨x.1, ⟨x, hx, rfl, rfl⟩, ?_⟩
    rw [requestAt, hr, Option.bind_some, if_pos rfl]
    exact Option.some_ne_none _
  · rintro ⟨e, ⟨x, hx, hw, rfl⟩, hread⟩
    obtain ⟨t, ht⟩ := Option.ne_none_iff_exists'.1 hread
    obtain ⟨r, hr, hid⟩ := Option.bind_eq_some_iff.1 ht
    obtain ⟨hid, -⟩ := Option.ite_none_right_eq_some.1 hid
    refine ⟨x, hx, ?_⟩
    rw [hr, Option.map_some, hw, hid]

theorem foldl_spawnTiming (durations : List Int) :
    durations.foldl SpawnTiming.add ⟨0, 0⟩ = ⟨durations.length, durations.sum⟩ := by
  induction durations using List.reverseRecOn with
  | nil => rfl
  | append_singleton durations d ih =>
    rw [List.foldl_concat, ih, List.length_append, List.sum_append, List.sum_singleton]
    rfl

/-- The pairing pass files each duration under its role and counts the spawns without one. -/
theorem foldl_timed (results : Std.ExtTreeMap SpawnKey SystemTime)
    (requests : List (SpawnKey × SystemTime)) : requests.foldl (Timed.add results) ⟨∅, 0⟩ =
      ⟨gather compare SpawnTiming.add ⟨0, 0⟩ (requests.filterMap fun r =>
          (pairedDuration results r.1 r.2).map fun d => (spawnRole r.1.id, d)),
        (requests.filter fun r => (pairedDuration results r.1 r.2).isNone).length⟩ := by
  induction requests using List.reverseRecOn with
  | nil => rfl
  | append_singleton requests r ih =>
    rw [List.foldl_concat, ih, Timed.add, List.filterMap_append, List.filter_append]
    cases hd : pairedDuration results r.1 r.2 with
    | none => simp [hd]
    | some d => simp [hd, gather, SpawnTiming.add]

section
variable (line : String → Option Json) (events : List Event)

theorem requestedAt_keys : (fold line events).windows.requestedAt.keys.toFinset = asked events := by
  ext k
  rw [List.mem_toFinset, Std.ExtTreeMap.mem_keys, Std.ExtTreeMap.mem_iff_isSome_getElem?,
    getElem?_requestedAt, mem_asked]

theorem pairedDuration_eq {r : SpawnKey × SystemTime}
    (h : r ∈ (fold line events).windows.requestedAt.toList) :
    pairedDuration (resultAt (fold line events).windows.starts events) r.1 r.2 =
      spawnDuration events r.1 := by
  have hfirst := Std.ExtTreeMap.mem_toList_iff_getElem?_eq_some.1 h
  rw [getElem?_requestedAt] at hfirst
  rw [pairedDuration, starts_fold, getElem?_resultAt, spawnDuration, hfirst, Option.bind_some]
  cases latest (resultFor r.1.id) (windowSlice opensWindow events r.1.window) <;> rfl

theorem filterMap_paired (role : String) :
    ofGroup role ((fold line events).windows.requestedAt.toList.filterMap fun r =>
        (pairedDuration (resultAt (fold line events).windows.starts events) r.1 r.2).map
          fun d => (spawnRole r.1.id, d)) =
      ((fold line events).windows.requestedAt.keys.filter fun k =>
        spawnRole k.id = role ∧ (spawnDuration events k).isSome = true).map
          fun k => (spawnDuration events k).getD 0 := by
  rw [← Std.ExtTreeMap.map_fst_toList_eq_keys, ofGroup]
  have hread : ∀ r ∈ (fold line events).windows.requestedAt.toList,
      pairedDuration (resultAt (fold line events).windows.starts events) r.1 r.2 =
        spawnDuration events r.1 := fun r hr => pairedDuration_eq line events hr
  revert hread
  generalize (fold line events).windows.requestedAt.toList = requests
  intro hread
  induction requests with
  | nil => rfl
  | cons r requests ih =>
    have hrest := ih fun x hx => hread x (List.mem_cons_of_mem _ hx)
    rw [List.filterMap_cons, hread r List.mem_cons_self, List.map_cons, List.filter_cons]
    cases hd : spawnDuration events r.1 with
    | none => simpa [hd] using hrest
    | some d =>
      by_cases hrole : spawnRole r.1.id = role
      · simpa [hd, hrole] using hrest
      · simpa [hd, hrole] using hrest

end

/-! ## Windows of runs -/

/-- The run whose boundary opens the window, none for the window before the first. -/
def runOpened (events : List Event) (w : Nat) : Option String :=
  if w = 0 then none
  else ((events.filter opensWindow)[w - 1]?.bind fun e => RunStarted.decode e.data).map (·.run)

section
variable (events : List Event) (e : Event)

theorem runOpened_append (later : List Event) {w : Nat} (h : w ≤ events.countP opensWindow) :
    runOpened (events ++ later) w = runOpened events w := by
  unfold runOpened
  split
  · rfl
  · have hlt : w - 1 < (events.filter opensWindow).length := by
      rw [← List.countP_eq_length_filter]
      omega
    rw [List.filter_append, List.getElem?_append_left hlt]

theorem runOpened_concat : runOpened (events ++ [e]) ((events ++ [e]).countP opensWindow) =
    if e.type_ = typeRunStarted then
      Run.advance (runOpened events (events.countP opensWindow)) e
    else runOpened events (events.countP opensWindow) := by
  cases hopens : opensWindow e with
  | true =>
    obtain ⟨started, hstarted⟩ := Option.isSome_iff_exists.1 (Bool.and_eq_true_iff.1 hopens).2
    have hcount : (events ++ [e]).countP opensWindow = events.countP opensWindow + 1 := by
      simp [List.countP_append, hopens]
    have hlast : (((events ++ [e]).filter opensWindow)[events.countP opensWindow]?) = some e := by
      rw [List.countP_eq_length_filter, List.filter_append]
      simp [hopens]
    rw [hcount, if_pos (type_of_opensWindow hopens), Run.advance, hstarted, runOpened,
      if_neg (Nat.succ_ne_zero _), Nat.add_sub_cancel, hlast, Option.bind_some, hstarted]
    rfl
  | false =>
    have hcount : (events ++ [e]).countP opensWindow = events.countP opensWindow := by
      simp [List.countP_append, hopens]
    rw [hcount, runOpened_append _ _ (Nat.le_refl _)]
    split
    · next htype =>
      have hbody : RunStarted.decode e.data = none := by
        rw [opensWindow, htype, beq_self_eq_true, Bool.true_and] at hopens
        exact Option.not_isSome_iff_eq_none.1 (by rw [hopens]; exact Bool.false_ne_true)
      rw [Run.advance, hbody]
    · rfl

end

theorem runOf_eq_windowOf {current : Option String} {e : Event} {run : RunOf}
    (h : Run.runOf current e = some run) (hlesson : run ≠ .lesson) :
    run = Run.windowOf current := by
  unfold Run.runOf at h
  split at h
  · exact absurd (Option.some.inj h).symm hlesson
  · exact (Option.some.inj (Option.ite_none_right_eq_some.1 h).2).symm

theorem attributeFrom_window (before events : List Event) {a : Nat × RunOf}
    (ha : a ∈ Run.attributeFrom (runOpened before (before.countP opensWindow)) before.length events)
    (hlesson : a.2 ≠ .lesson) : a.2 = Run.windowOf
      (runOpened (before ++ events) (windowAt opensWindow (before ++ events) a.1)) := by
  induction events generalizing before with
  | nil => cases ha
  | cons e events ih =>
    have hnext := ih (before ++ [e])
    rw [runOpened_concat, List.length_append, List.length_singleton, List.append_assoc,
      List.singleton_append] at hnext
    rw [Run.attributeFrom] at ha
    by_cases hstarted : e.type_ = typeRunStarted
    · rw [if_pos hstarted] at ha hnext
      exact hnext ha
    · rw [if_neg hstarted] at ha hnext
      cases hrun : Run.runOf (runOpened before (before.countP opensWindow)) e with
      | none =>
        rw [hrun] at ha
        exact hnext ha
      | some run =>
        rw [hrun] at ha
        rcases List.mem_cons.1 ha with rfl | ha
        · have hat : windowAt opensWindow (before ++ e :: events) before.length =
              before.countP opensWindow := by
            rw [windowAt, List.take_append, List.take_of_length_le (Nat.le_succ _)]
            simp [List.countP_append, opensWindow_eq_false hstarted]
          rw [hat, runOpened_append _ _ (Nat.le_refl _)]
          exact runOf_eq_windowOf hrun hlesson
        · exact hnext ha

/-- A spawn is counted once, timed from a request to a result of one window or unpaired, and its
window is the one run attribution places the window's events in. -/
theorem project_spawnTiming (line : String → Option Json) (events : List Event) :
    (project line events).unpairedSpawns =
        ((asked events).filter fun k => spawnDuration events k = none).card ∧
      (∀ role, (project line events).spawnTiming[role]? =
        if timed events role = ∅ then none
        else some ⟨(timed events role).card,
          ∑ k ∈ timed events role, (spawnDuration events k).getD 0⟩) ∧
      ∀ a ∈ Run.runAttribution events, a.2 ≠ .lesson →
        a.2 = Run.windowOf (runOpened events (windowAt opensWindow events a.1)) := by
  have hnodup : (fold line events).windows.requestedAt.keys.Nodup := Std.ExtTreeMap.nodup_keys
  have hproject : ((project line events).spawnTiming, (project line events).unpairedSpawns) =
      (let t := (fold line events).windows.requestedAt.toList.foldl
        (Timed.add (resultAt (fold line events).windows.starts events)) ⟨∅, 0⟩
      (t.timing, t.unpaired)) := rfl
  rw [foldl_timed, Prod.mk.injEq] at hproject
  obtain ⟨htiming, hunpaired⟩ := hproject
  refine ⟨?_, fun role => ?_, fun a ha hlesson => attributeFrom_window [] events ha hlesson⟩
  · have hread : ((fold line events).windows.requestedAt.toList.filter fun r =>
          (pairedDuration (resultAt (fold line events).windows.starts events) r.1 r.2).isNone) =
        (fold line events).windows.requestedAt.toList.filter fun r =>
          (spawnDuration events r.1).isNone :=
      List.filter_congr fun r hr => by rw [pairedDuration_eq line events hr]
    have hkeys : ((asked events).filter fun k => spawnDuration events k = none) =
        ((fold line events).windows.requestedAt.keys.filter fun k =>
          (spawnDuration events k).isNone).toFinset := by
      rw [← requestedAt_keys line]
      ext k
      simp
    rw [hunpaired, hread, hkeys, List.toFinset_card_of_nodup (hnodup.filter _),
      ← Std.ExtTreeMap.map_fst_toList_eq_keys, List.filter_map, List.length_map]
    rfl
  · have hkeys : timed events role = ((fold line events).windows.requestedAt.keys.filter fun k =>
        spawnRole k.id = role ∧ (spawnDuration events k).isSome = true).toFinset := by
      rw [timed, ← requestedAt_keys line]
      ext k
      simp
    rw [htiming, getElem?_gather, filterMap_paired, hkeys, List.toFinset_card_of_nodup
      (hnodup.filter _), List.sum_toFinset _ (hnodup.filter _), foldl_spawnTiming, List.length_map]
    simp only [List.map_eq_nil_iff, List.toFinset_eq_empty_iff]

end Rigger.Metrics
