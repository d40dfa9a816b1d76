import Rigger.Process.Paths
import Rigger.Conductor.Emit
import Mathlib.Data.List.Nodup
import Mathlib.Data.List.Perm.Subperm
import Mathlib.Logic.Function.Basic
import Mathlib.Logic.Relation

/-!
# The reaper (`rigger-process/src/reap.rs`)

A reap scans `/proc` for the processes rooted in a directory, signals them, waits and scans again;
`end_child` ends a child it holds and the descendants a snapshot found.  The machine changes between
any two reads.  `signals_owned` says what every process signalled was when it was scanned and
rechecked, and which directories are taken for one under the base.
-/

namespace Rigger.Reap

open Lib

abbrev Pid := UInt32

/-! ## The machine -/

structure Process where
  start : Nat
  ppid : Option Pid
  cwd : Option Cwd

/-- The machine at one read.  `born` are the processes there have been, `exited` what `try_wait`
answers of the held child. -/
structure Machine where
  entries : Option (List String)
  process : Pid → Option Process
  canonicalize : Bytes → Option (List FileName)
  exited : Bool
  born : List (Pid × Nat)

inductive Change (m : Machine) : Machine → Prop where
  | exit (pid : Pid) : Change m { m with process := Function.update m.process pid none }
  | fork (pid : Pid) (p : Process) (hfree : m.process pid = none)
      (hfresh : (pid, p.start) ∉ m.born) :
      Change m { m with
        process := Function.update m.process pid (some p)
        born := (pid, p.start) :: m.born }
  -- A `chdir`, a new parent, or the working directory unlinked.
  | alter (pid : Pid) (p q : Process) (hheld : m.process pid = some p)
      (hstart : q.start = p.start) :
      Change m { m with process := Function.update m.process pid (some q) }
  | files (canonicalize : Bytes → Option (List FileName)) :
      Change m { m with canonicalize := canonicalize }
  | listing (entries : Option (List String)) : Change m { m with entries := entries }
  | collect (exited : Bool) : Change m { m with exited := exited }

/-- What the reads of a run find, one after another. -/
structure History where
  reads : Nat → Machine
  recorded : ∀ pid p, (reads 0).process pid = some p → (pid, p.start) ∈ (reads 0).born
  evolves : ∀ n, Relation.ReflTransGen Change (reads n) (reads (n + 1))

def Machine.pidStarttime (m : Machine) (pid : Pid) : Option Nat := (m.process pid).map Process.start

def Machine.readPpid (m : Machine) (pid : Pid) : Option Pid := (m.process pid).bind Process.ppid

def Machine.readLink (m : Machine) (pid : Pid) : Option Bytes :=
  ((m.process pid).bind Process.cwd).map Cwd.link

section
variable (reads : Nat → Machine)

/-! ## Paths -/

def push (resolved : List FileName) : Component → List FileName
  | .parentDir => resolved.dropLast
  | .normal name => resolved ++ [name]
  | _ => resolved

/-- The walk up from a path that does not resolve; `above` are its components, the last one
first. -/
def resolveAbove (missing : List Component) : List Component → Nat → Option (List FileName) × Nat
  | [], t => (none, t)
  | .rootDir :: _, t => (none, t)
  | c :: above, t =>
    match (reads t).canonicalize (asPath above.reverse) with
    | some resolved => (some ((c :: missing).foldl push resolved), t + 1)
    | none => resolveAbove (c :: missing) above (t + 1)

def resolveLexically (path : Bytes) (t : Nat) : Option (List FileName) × Nat :=
  match (reads t).canonicalize path with
  | some resolved => (some resolved, t + 1)
  | none => resolveAbove reads [] (components path).reverse (t + 1)

def isReapableBase (basePath authorizedRoot : Bytes) (t : Nat) : Option (List FileName) × Nat :=
  match (reads t).canonicalize authorizedRoot with
  | none => (none, t + 1)
  | some root =>
    match resolveLexically reads basePath (t + 1) with
    | (none, t') => (none, t')
    | (some base, t') => (if base ≠ root ∧ root <+: base then some base else none, t')

/-! ## Walks over parents -/

def ancestorWalk : Nat → Pid → List Pid → Nat → Option (List Pid × Nat)
  | 0, _, _, _ => none
  | fuel + 1, current, out, t =>
    match (reads t).readPpid current with
    | none => some (out, t + 1)
    | some parent =>
      if parent ≤ 1 ∨ parent ∈ out then some (out, t + 1)
      else ancestorWalk fuel parent (parent :: out) (t + 1)

def ancestorPids (pid : Pid) (t : Nat) : List Pid × Nat :=
  (ancestorWalk reads (UInt32.size + 1) pid [] t).getD ([], t)

structure ScanEntry where
  pid : Pid
  starttime : Nat

/-- The numeric names of `/proc`. -/
def pidsOf (names : List String) : List Pid :=
  names.filterMap fun name => (Conductor.parseU32 name.toList).map UInt32.ofNat

/-- Each process's parent, as `(ppid, pid)`. -/
def parentsOf : List Pid → Nat → List (Pid × Pid) × Nat
  | [], t => ([], t)
  | pid :: pids, t =>
    let rest := parentsOf pids (t + 1)
    match (reads t).readPpid pid with
    | some ppid => ((ppid, pid) :: rest.1, rest.2)
    | none => rest

def childrenOf (parents : List (Pid × Pid)) (pid : Pid) : List Pid :=
  (parents.filter fun p => p.1 = pid).map Prod.snd

/-- A walk down; the frontier's top is its head. -/
structure Descent where
  seen : List Pid
  out : List ScanEntry
  frontier : List Pid
  clock : Nat

def Descent.visit (d : Descent) (kid : Pid) : Descent :=
  if kid ∈ d.seen then d
  else
    { seen := kid :: d.seen
      out := d.out ++ (((reads d.clock).pidStarttime kid).map fun start => ⟨kid, start⟩).toList
      frontier := kid :: d.frontier
      clock := d.clock + 1 }

def descendantWalk (parents : List (Pid × Pid)) : Nat → Descent → Option Descent
  | 0, _ => none
  | fuel + 1, d =>
    match d.frontier with
    | [] => some d
    | pid :: rest =>
      descendantWalk parents fuel
        ((childrenOf parents pid).foldl (Descent.visit reads) { d with frontier := rest })

def descendantsOf (rootPid : Pid) (t : Nat) : List ScanEntry × Nat :=
  match (reads t).entries with
  | none => ([], t + 1)
  | some names =>
    let parents := parentsOf reads (pidsOf names) (t + 1)
    let start : Descent := ⟨[], [], [rootPid], parents.2⟩
    let d := (descendantWalk reads parents.1 (parents.1.length + 2) start).getD start
    (d.out, d.clock)

/-! ## The scan -/

def rooted (selfPid : Pid) (base : List FileName) : List Pid → Nat → List Pid × Nat
  | [], t => ([], t)
  | pid :: pids, t =>
    if pid = selfPid then rooted selfPid base pids t
    else
      let rest := rooted selfPid base pids (t + 1)
      match (reads t).readLink pid with
      | none => rest
      | some cwd => if isInside cwd base then (pid :: rest.1, rest.2) else rest

def processesRootedUnder (selfPid : Pid) (baseDir : Bytes) (t : Nat) : List Pid × Nat :=
  match resolveLexically reads baseDir t with
  | (none, t') => ([], t')
  | (some base, t') =>
    match (reads t').entries with
    | none => ([], t' + 1)
    | some names => rooted reads selfPid base (pidsOf names) (t' + 1)

def withStarttime : List Pid → Nat → List ScanEntry × Nat
  | [], t => ([], t)
  | pid :: pids, t =>
    let rest := withStarttime pids (t + 1)
    match (reads t).pidStarttime pid with
    | some start => (⟨pid, start⟩ :: rest.1, rest.2)
    | none => rest

def scanWithStarttime (selfPid : Pid) (base : List FileName) (t : Nat) : List ScanEntry × Nat :=
  let found := processesRootedUnder reads selfPid (pathBuf base) t
  withStarttime reads found.1 found.2

/-! ## Signals -/

inductive Signal where
  | term
  | kill
deriving DecidableEq

/-- A signal sent on what the read `at_` found. -/
structure Sent where
  pid : Pid
  signal : Signal
  at_ : Nat
deriving DecidableEq

/-- A pid past `i32` is no target. -/
def sendSignal (signal : Signal) (pid : Pid) (t : Nat) : List Sent :=
  if pid ≤ 1 ∨ 2 ^ 31 ≤ pid.toNat then [] else [⟨pid, signal, t⟩]

def isSignalEligible (pid selfPid : Pid) (selfAncestors : List Pid) : Bool :=
  1 < pid && pid ≠ selfPid && !selfAncestors.contains pid

/-- `toctou_still_same_process`, and the signal where it is. -/
def signalDescendantIfUnchanged (selfPid : Pid) (selfAncestors : List Pid) (signal : Signal)
    (target : ScanEntry) (t : Nat) : List Sent × Nat :=
  if isSignalEligible target.pid selfPid selfAncestors then
    if (reads t).pidStarttime target.pid = some target.starttime then
      (sendSignal signal target.pid t, t + 1)
    else ([], t + 1)
  else ([], t)

def signalIfUnchanged (base : List FileName) (selfPid : Pid) (selfAncestors : List Pid)
    (signal : Signal) (target : ScanEntry) (t : Nat) : List Sent × Nat :=
  match (reads t).readLink target.pid with
  | none => ([], t + 1)
  | some cwd =>
    if isInside cwd base then
      signalDescendantIfUnchanged reads selfPid selfAncestors signal target (t + 1)
    else ([], t + 1)

def forEach (send : ScanEntry → Nat → List Sent × Nat) : List ScanEntry → Nat → List Sent × Nat
  | [], t => ([], t)
  | target :: targets, t =>
    let first := send target t
    let rest := forEach send targets first.2
    (first.1 ++ rest.1, rest.2)

def reapAuthorized (selfPid : Pid) (base : List FileName) (t : Nat) : List Sent × Nat :=
  let ancestors := ancestorPids reads selfPid t
  let targets := scanWithStarttime reads selfPid base ancestors.2
  if targets.1.isEmpty then ([], targets.2)
  else
    let term := forEach (signalIfUnchanged reads base selfPid ancestors.1 .term) targets.1 targets.2
    let again := scanWithStarttime reads selfPid base term.2
    let kill := forEach (signalIfUnchanged reads base selfPid ancestors.1 .kill) again.1 again.2
    (term.1 ++ kill.1, kill.2)

def reapProcessesRootedUnder (selfPid : Pid) (basePath authorizedRoot : Bytes) (t : Nat) :
    List Sent × Nat :=
  match isReapableBase reads basePath authorizedRoot t with
  | (none, t') => ([], t')
  | (some base, t') => reapAuthorized reads selfPid base t'

/-! ## The held child -/

/-- The grace: up to `polls` looks at the child before its deadline. -/
def grace : Nat → Nat → Nat
  | 0, t => t
  | polls + 1, t => if (reads t).exited then t + 1 else grace polls (t + 1)

def endHeld (child : Pid) (polls : Nat) (t : Nat) : List Sent × Nat :=
  if (reads t).exited then ([], t + 1)
  else
    let t' := grace reads polls (t + 1)
    if (reads t').exited then (sendSignal .term child t, t' + 1)
    else (sendSignal .term child t ++ sendSignal .kill child t', t' + 1)

def endChild (selfPid child : Pid) (polls : Nat) (descendants : List ScanEntry) (t : Nat) :
    List Sent × Nat :=
  let held := endHeld reads child polls t
  if descendants.isEmpty then held
  else
    let ancestors := ancestorPids reads selfPid held.2
    let term := forEach (signalDescendantIfUnchanged reads selfPid ancestors.1 .term) descendants
      ancestors.2
    let kill := forEach (signalDescendantIfUnchanged reads selfPid ancestors.1 .kill) descendants
      term.2
    (held.1 ++ term.1 ++ kill.1, kill.2)

end

/-! ## Who holds a pid -/

def Machine.Recorded (m : Machine) : Prop :=
    ∀ pid p, m.process pid = some p → (pid, p.start) ∈ m.born

/-- Whoever holds a pid held it before, or starts as none of its holders did. -/
structure Evolved (m m' : Machine) : Prop where
  born : m.born ⊆ m'.born
  holder : ∀ pid p, m'.process pid = some p → (∃ q, m.process pid = some q ∧ q.start = p.start) ∨
    (pid, p.start) ∉ m.born ∧ (pid, p.start) ∈ m'.born

theorem Evolved.refl (m : Machine) : Evolved m m :=
  ⟨List.Subset.refl _, fun _ p hp => .inl ⟨p, hp, rfl⟩⟩

variable {m' m : Machine}

theorem Evolved.trans {m'' : Machine} (h : Evolved m m') (h' : Evolved m' m'') : Evolved m m'' := by
  refine ⟨List.Subset.trans h.born h'.born, fun pid p hp => ?_⟩
  rcases h'.holder pid p hp with ⟨q, hq, hstart⟩ | ⟨hnew, hborn⟩
  · rw [← hstart]
    rcases h.holder pid q hq with hheld | ⟨hnew, hborn⟩
    · exact .inl hheld
    · exact .inr ⟨hnew, h'.born hborn⟩
  · exact .inr ⟨fun hold => hnew (h.born hold), hborn⟩

theorem Evolved.recorded (h : Evolved m m') (hm : m.Recorded) : m'.Recorded := by
  intro pid p hp
  rcases h.holder pid p hp with ⟨q, hq, hstart⟩ | ⟨-, hborn⟩
  · exact h.born (hstart ▸ hm pid q hq)
  · exact hborn

theorem update_eq_some {f : Pid → Option Process} {pid pid' : Pid} {new : Option Process}
    {p : Process} (h : Function.update f pid new pid' = some p) :
    pid' = pid ∧ new = some p ∨ f pid' = some p := by
  by_cases hpid : pid' = pid
  · subst hpid
    rw [Function.update_self] at h
    exact .inl ⟨rfl, h⟩
  · rw [Function.update_of_ne hpid] at h
    exact .inr h

theorem Change.evolved (h : Change m m') : Evolved m m' := by
  cases h with
  | exit pid =>
    refine ⟨List.Subset.refl _, fun pid' p hp => ?_⟩
    rcases update_eq_some hp with ⟨-, hnone⟩ | hp
    · cases hnone
    · exact .inl ⟨p, hp, rfl⟩
  | fork pid new hfree hfresh =>
    refine ⟨List.subset_cons_self _ _, fun pid' p hp => ?_⟩
    rcases update_eq_some hp with ⟨rfl, hnew⟩ | hp
    · cases hnew
      exact .inr ⟨hfresh, List.mem_cons_self⟩
    · exact .inl ⟨p, hp, rfl⟩
  | alter pid before after hheld hstart =>
    refine ⟨List.Subset.refl _, fun pid' p hp => ?_⟩
    rcases update_eq_some hp with ⟨rfl, hafter⟩ | hp
    · cases hafter
      exact .inl ⟨before, hheld, hstart.symm⟩
    · exact .inl ⟨p, hp, rfl⟩
  | files => exact ⟨List.Subset.refl _, fun _ p hp => .inl ⟨p, hp, rfl⟩⟩
  | listing => exact ⟨List.Subset.refl _, fun _ p hp => .inl ⟨p, hp, rfl⟩⟩
  | collect => exact ⟨List.Subset.refl _, fun _ p hp => .inl ⟨p, hp, rfl⟩⟩

theorem evolved_of_changes (h : Relation.ReflTransGen Change m m') : Evolved m m' := by
  induction h with
  | refl => exact .refl _
  | tail _ hstep ih => exact ih.trans hstep.evolved

namespace History

variable (h : History)

theorem evolved_step (n : Nat) : Evolved (h.reads n) (h.reads (n + 1)) :=
  evolved_of_changes (h.evolves n)

theorem recorded_at (n : Nat) : (h.reads n).Recorded := by
  induction n with
  | zero => exact h.recorded
  | succ n ih => exact (h.evolved_step n).recorded ih

theorem evolved {i j : Nat} (hij : i ≤ j) : Evolved (h.reads i) (h.reads j) := by
  induction j, hij using Nat.le_induction with
  | base => exact .refl _
  | succ j _ ih => exact ih.trans (h.evolved_step j)

/-- A pid that reads the same start time twice named one process all the while. -/
theorem same_holder {pid : Pid} {start i j k : Nat} (hij : i ≤ j) (hjk : j ≤ k)
    (hi : (h.reads i).pidStarttime pid = some start)
    (hk : (h.reads k).pidStarttime pid = some start) :
    (h.reads j).pidStarttime pid = some start := by
  obtain ⟨p, hp, rfl⟩ := Option.map_eq_some_iff.1 hk
  obtain ⟨q, hq, hstart⟩ := Option.map_eq_some_iff.1 hi
  rcases (h.evolved hjk).holder pid p hp with ⟨r, hr, hrp⟩ | ⟨hnew, -⟩
  · rw [Machine.pidStarttime, hr, Option.map_some, hrp]
  · have hborn := h.recorded_at i pid q hq
    rw [hstart] at hborn
    exact absurd ((h.evolved hij).born hborn) hnew

end History

section
variable (reads : Nat → Machine)

/-! ## The walks end -/

theorem resolveAbove_clock (missing above : List Component) (t : Nat) :
    t ≤ (resolveAbove reads missing above t).2 ∧
      (resolveAbove reads missing above t).2 ≤ t + above.length := by
  induction above generalizing missing t with
  | nil => exact ⟨Nat.le_refl t, Nat.le_refl t⟩
  | cons c above ih =>
    have hrest := ih (c :: missing) (t + 1)
    unfold resolveAbove
    split
    · exact ⟨Nat.le_refl _, Nat.le_add_right _ _⟩
    · exact ⟨Nat.le_refl _, Nat.le_add_right _ _⟩
    · next heq =>
      cases heq
      rw [List.length_cons]
      split
      · dsimp only
        omega
      · omega

variable {pids kids : List Pid} {kid : Pid} {since t : Nat} {d : Descent}

theorem length_le_of_nodup (h : pids.Nodup) : pids.length ≤ UInt32.size := by
  have hmap : (pids.map UInt32.toNat).Nodup :=
    List.Nodup.map (fun a b hab => UInt32.toNat_inj.1 hab) h
  have hsub : pids.map UInt32.toNat ⊆ List.range UInt32.size := by
    intro n hn
    obtain ⟨pid, -, rfl⟩ := List.mem_map.1 hn
    exact List.mem_range.2 pid.toNat_lt
  have hle := (List.subperm_of_subset hmap hsub).length_le
  rwa [List.length_map, List.length_range] at hle

/-- Every parent the walk goes on to is new, and there are only so many pids. -/
theorem ancestorWalk_ends (fuel : Nat) (current : Pid) {out : List Pid} (hout : out.Nodup) (t : Nat)
    (hfuel : UInt32.size < out.length + fuel) :
    (ancestorWalk reads fuel current out t).isSome = true := by
  induction fuel generalizing current out t with
  | zero =>
    have := length_le_of_nodup hout
    omega
  | succ fuel ih =>
    unfold ancestorWalk
    split
    · rfl
    · next parent _ =>
      split
      · rfl
      · next hnew =>
        rw [not_or] at hnew
        refine ih parent (List.nodup_cons.2 ⟨hnew.2, hout⟩) (t + 1) ?_
        rw [List.length_cons]
        omega

/-- What the walk down has left to take: its frontier and the children it has not seen. -/
def Descent.left (parents : List (Pid × Pid)) (d : Descent) : Nat :=
  d.frontier.length + (parents.filter fun p => p.2 ∉ d.seen).length

variable {parents : List (Pid × Pid)} {root : Pid}

theorem visit_left (d : Descent) {ppid : Pid} (hkid : (ppid, kid) ∈ parents) :
    (d.visit reads kid).left parents ≤ d.left parents := by
  unfold Descent.visit
  split
  · exact Nat.le_refl _
  · next hnew =>
    have hfewer : (parents.filter fun p => p.2 ∉ kid :: d.seen).length <
        (parents.filter fun p => p.2 ∉ d.seen).length := by
      have heq : (parents.filter fun p => p.2 ∉ kid :: d.seen) =
          (parents.filter fun p => p.2 ∉ d.seen).filter fun p => p.2 ≠ kid := by
        rw [List.filter_filter]
        refine List.filter_congr fun p _ => ?_
        simp [List.mem_cons, not_or]
      rw [heq]
      refine List.length_filter_lt_length_iff_exists.2 ⟨(ppid, kid), ?_, by simp⟩
      simpa using ⟨hkid, hnew⟩
    simp only [Descent.left, List.length_cons]
    omega

theorem visitAll_left (hkids : ∀ kid ∈ kids, ∃ ppid, (ppid, kid) ∈ parents) (d : Descent) :
    (kids.foldl (Descent.visit reads) d).left parents ≤ d.left parents := by
  induction kids generalizing d with
  | nil => exact Nat.le_refl _
  | cons kid kids ih =>
    obtain ⟨ppid, hkid⟩ := hkids kid List.mem_cons_self
    exact Nat.le_trans (ih (fun k hk => hkids k (List.mem_cons_of_mem _ hk)) _)
      (visit_left reads d hkid)

theorem mem_childrenOf {pid : Pid} : kid ∈ childrenOf parents pid ↔ (pid, kid) ∈ parents := by
  unfold childrenOf
  constructor
  · intro h
    obtain ⟨⟨ppid, k⟩, hp, rfl⟩ := List.mem_map.1 h
    simp only [List.mem_filter, decide_eq_true_eq] at hp
    exact hp.2 ▸ hp.1
  · intro h
    exact List.mem_map.2 ⟨(pid, kid), by simpa using h, rfl⟩

/-- Whatever the parents are, cyclic or not, the walk down runs out of them. -/
theorem descendantWalk_ends (parents : List (Pid × Pid)) (fuel : Nat) (d : Descent)
    (hfuel : d.left parents < fuel) : (descendantWalk reads parents fuel d).isSome = true := by
  induction fuel generalizing d with
  | zero => omega
  | succ fuel ih =>
    unfold descendantWalk
    split
    · rfl
    · next pid rest hfrontier =>
      have hof : ∀ kid ∈ childrenOf parents pid, ∃ ppid, (ppid, kid) ∈ parents :=
        fun kid hkid => ⟨pid, mem_childrenOf.1 hkid⟩
      have hkids := visitAll_left reads hof { d with frontier := rest }
      refine ih _ (Nat.lt_of_le_of_lt hkids ?_)
      simp only [Descent.left, hfrontier, List.length_cons] at hfuel
      simp only [Descent.left]
      omega

/-! ## What the walk down finds -/

/-- What a walk down from `root` over `parents` has reached and read. -/
structure Descent.Sound (parents : List (Pid × Pid)) (root : Pid) (since : Nat) (d : Descent) :
    Prop where
  clock : since ≤ d.clock
  frontier : ∀ pid ∈ d.frontier, Relation.ReflTransGen (fun a b => (a, b) ∈ parents) root pid
  out : ∀ e ∈ d.out, Relation.TransGen (fun a b => (a, b) ∈ parents) root e.pid ∧
    ∃ i, since ≤ i ∧ i < d.clock ∧ (reads i).pidStarttime e.pid = some e.starttime

theorem Descent.Sound.visit (h : d.Sound reads parents root since)
    (hkid : Relation.TransGen (fun a b => (a, b) ∈ parents) root kid) :
    (d.visit reads kid).Sound reads parents root since := by
  unfold Descent.visit
  split
  · exact h
  · refine ⟨Nat.le_succ_of_le h.clock, fun pid hpid => ?_, fun e he => ?_⟩
    · rcases List.mem_cons.1 hpid with rfl | hpid
      · exact hkid.to_reflTransGen
      · exact h.frontier pid hpid
    · rcases List.mem_append.1 he with he | he
      · obtain ⟨hreached, i, hsince, hi, hstart⟩ := h.out e he
        exact ⟨hreached, i, hsince, Nat.lt_succ_of_lt hi, hstart⟩
      · rw [Option.mem_toList, Option.map_eq_some_iff] at he
        obtain ⟨start, hstart, rfl⟩ := he
        exact ⟨hkid, d.clock, h.clock, Nat.lt_succ_self _, hstart⟩

theorem Descent.Sound.visitAll
    (hkids : ∀ kid ∈ kids, Relation.TransGen (fun a b => (a, b) ∈ parents) root kid)
    (h : d.Sound reads parents root since) :
    (kids.foldl (Descent.visit reads) d).Sound reads parents root since := by
  induction kids generalizing d with
  | nil => exact h
  | cons kid kids ih =>
    exact ih (fun k hk => hkids k (List.mem_cons_of_mem _ hk))
      (h.visit reads (hkids kid List.mem_cons_self))

theorem Descent.Sound.walk {fuel : Nat} {d' : Descent} (h : d.Sound reads parents root since)
    (hwalk : descendantWalk reads parents fuel d = some d') :
    d'.Sound reads parents root since := by
  induction fuel generalizing d with
  | zero => cases hwalk
  | succ fuel ih =>
    unfold descendantWalk at hwalk
    split at hwalk
    · cases hwalk
      exact h
    · next pid rest hfrontier =>
      have hpid := h.frontier pid (by rw [hfrontier]; exact List.mem_cons_self)
      have hrest : { d with frontier := rest }.Sound reads parents root since := by
        refine ⟨h.clock, fun x hx => h.frontier x ?_, h.out⟩
        rw [hfrontier]
        exact List.mem_cons_of_mem _ hx
      refine ih (hrest.visitAll reads fun kid hkid => ?_) hwalk
      exact .tail' hpid (mem_childrenOf.1 hkid)

/-! ## What the scans find -/

theorem parentsOf_read (pids : List Pid) (t : Nat) :
    t ≤ (parentsOf reads pids t).2 ∧ ∀ p ∈ (parentsOf reads pids t).1,
      ∃ i, t ≤ i ∧ i < (parentsOf reads pids t).2 ∧ (reads i).readPpid p.2 = some p.1 := by
  induction pids generalizing t with
  | nil => exact ⟨Nat.le_refl t, by simp [parentsOf]⟩
  | cons pid pids ih =>
    obtain ⟨hclock, hread⟩ := ih (t + 1)
    have hrest : ∀ p ∈ (parentsOf reads pids (t + 1)).1, ∃ i, t ≤ i ∧
        i < (parentsOf reads pids (t + 1)).2 ∧ (reads i).readPpid p.2 = some p.1 := by
      intro p hp
      obtain ⟨i, hlo, hhi, hi⟩ := hread p hp
      exact ⟨i, by omega, hhi, hi⟩
    unfold parentsOf
    dsimp only
    split
    · next ppid hppid =>
      refine ⟨by dsimp only; omega, fun p hp => ?_⟩
      rcases List.mem_cons.1 hp with rfl | hp
      · exact ⟨t, Nat.le_refl t, by dsimp only; omega, hppid⟩
      · exact hrest p hp
    · exact ⟨by omega, hrest⟩

/-- A snapshot's entry descends from its root by parents the snapshot read, and starts when it
read. -/
theorem descendantsOf_read {e : ScanEntry} (he : e ∈ (descendantsOf reads root t).1) :
    Relation.TransGen (fun a b => ∃ i, t ≤ i ∧ i < (descendantsOf reads root t).2 ∧
        (reads i).readPpid b = some a) root e.pid ∧
      ∃ i, t ≤ i ∧ i < (descendantsOf reads root t).2 ∧
        (reads i).pidStarttime e.pid = some e.starttime := by
  unfold descendantsOf at he ⊢
  split at he
  · cases he
  · next names hnames =>
    dsimp only at he ⊢
    obtain ⟨hclock, hparents⟩ := parentsOf_read reads (pidsOf names) (t + 1)
    have hends := descendantWalk_ends reads (parentsOf reads (pidsOf names) (t + 1)).1
      ((parentsOf reads (pidsOf names) (t + 1)).1.length + 2)
      ⟨[], [], [root], (parentsOf reads (pidsOf names) (t + 1)).2⟩ (by
        have := List.length_filter_le (fun p : Pid × Pid => p.2 ∉ ([] : List Pid))
          (parentsOf reads (pidsOf names) (t + 1)).1
        simp only [Descent.left, List.length_cons, List.length_nil]
        omega)
    obtain ⟨d, hwalk⟩ := Option.isSome_iff_exists.1 hends
    rw [hwalk, Option.getD_some] at he ⊢
    have hstart : Descent.Sound reads (parentsOf reads (pidsOf names) (t + 1)).1 root
        (parentsOf reads (pidsOf names) (t + 1)).2
        ⟨[], [], [root], (parentsOf reads (pidsOf names) (t + 1)).2⟩ := by
      refine ⟨Nat.le_refl _, fun pid hpid => ?_, by simp⟩
      rw [List.mem_singleton.1 hpid]
    have hsound := hstart.walk reads hwalk
    obtain ⟨hreached, i, hsince, hi, hread⟩ := hsound.out e he
    refine ⟨Relation.TransGen.mono (fun a b hab => ?_) _ _ hreached, i, by omega, hi, hread⟩
    obtain ⟨j, hlo, hhi, hj⟩ := hparents (a, b) hab
    have := hsound.clock
    exact ⟨j, by omega, by omega, hj⟩

theorem withStarttime_read :
    t ≤ (withStarttime reads pids t).2 ∧ ∀ e ∈ (withStarttime reads pids t).1,
      ∃ i, t ≤ i ∧ i < (withStarttime reads pids t).2 ∧
        (reads i).pidStarttime e.pid = some e.starttime := by
  induction pids generalizing t with
  | nil => exact ⟨Nat.le_refl t, by simp [withStarttime]⟩
  | cons pid pids ih =>
    obtain ⟨hclock, hread⟩ := ih (t := t + 1)
    have hrest : ∀ e ∈ (withStarttime reads pids (t + 1)).1, ∃ i, t ≤ i ∧
        i < (withStarttime reads pids (t + 1)).2 ∧
        (reads i).pidStarttime e.pid = some e.starttime := by
      intro e he
      obtain ⟨i, hlo, hhi, hi⟩ := hread e he
      exact ⟨i, by omega, hhi, hi⟩
    unfold withStarttime
    dsimp only
    split
    · next start hstart =>
      refine ⟨by dsimp only; omega, fun e he => ?_⟩
      rcases List.mem_cons.1 he with rfl | he
      · exact ⟨t, Nat.le_refl t, by dsimp only; omega, hstart⟩
      · exact hrest e he
    · exact ⟨by omega, hrest⟩

/-! ## What a signal rests on -/

theorem mem_sendSignal {signal : Signal} {pid : Pid} {s : Sent} (hs : s ∈ sendSignal signal pid t) :
    s = ⟨pid, signal, t⟩ := by
  unfold sendSignal at hs
  split at hs
  · cases hs
  · exact List.mem_singleton.1 hs

theorem eligible_iff {pid selfPid : Pid} {ancestors : List Pid} :
    isSignalEligible pid selfPid ancestors = true ↔
      1 < pid ∧ pid ≠ selfPid ∧ pid ∉ ancestors := by
  simp [isSignalEligible, and_assoc]

/-- A target's recheck: it may be signalled, and starts when the scan read. -/
theorem signalDescendant_read (selfPid : Pid) (ancestors : List Pid) (signal : Signal)
    (target : ScanEntry) (t : Nat) :
    t ≤ (signalDescendantIfUnchanged reads selfPid ancestors signal target t).2 ∧
      ∀ s ∈ (signalDescendantIfUnchanged reads selfPid ancestors signal target t).1,
        s.pid = target.pid ∧ s.signal = signal ∧ s.at_ = t ∧
          (1 < s.pid ∧ s.pid ≠ selfPid ∧ s.pid ∉ ancestors) ∧
          (reads t).pidStarttime s.pid = some target.starttime := by
  unfold signalDescendantIfUnchanged
  split
  · next hpid =>
    split
    · next hstart =>
      refine ⟨Nat.le_succ t, fun s hs => ?_⟩
      cases mem_sendSignal hs
      exact ⟨rfl, rfl, rfl, eligible_iff.1 hpid, hstart⟩
    · exact ⟨Nat.le_succ t, by simp⟩
  · exact ⟨Nat.le_refl t, by simp⟩

theorem signal_read (base : List FileName) (selfPid : Pid) (ancestors : List Pid) (signal : Signal)
    (target : ScanEntry) (t : Nat) :
    t ≤ (signalIfUnchanged reads base selfPid ancestors signal target t).2 ∧
      ∀ s ∈ (signalIfUnchanged reads base selfPid ancestors signal target t).1,
        s.pid = target.pid ∧ s.signal = signal ∧ s.at_ = t + 1 ∧
          (1 < s.pid ∧ s.pid ≠ selfPid ∧ s.pid ∉ ancestors) ∧
          (reads (t + 1)).pidStarttime s.pid = some target.starttime ∧
          ∃ link, (reads t).readLink s.pid = some link ∧ isInside link base = true := by
  unfold signalIfUnchanged
  split
  · exact ⟨Nat.le_succ t, by simp⟩
  · next link hlink =>
    split
    · next hinside =>
      have hread := signalDescendant_read reads selfPid ancestors signal target (t + 1)
      refine ⟨by omega, fun s hs => ?_⟩
      obtain ⟨hpid, hsignal, hat, hspared, hstart⟩ := hread.2 s hs
      exact ⟨hpid, hsignal, hat, hspared, hstart, link, hpid ▸ hlink, hinside⟩
    · exact ⟨Nat.le_succ t, by simp⟩

variable {reads} in
/-- A signal of a loop over targets is one of a target's, at some later read. -/
theorem forEach_read {send : ScanEntry → Nat → List Sent × Nat}
    (hsend : ∀ target t, t ≤ (send target t).2) (targets : List ScanEntry) (t : Nat) :
    t ≤ (forEach send targets t).2 ∧ ∀ s ∈ (forEach send targets t).1,
      ∃ target ∈ targets, ∃ t', t ≤ t' ∧ s ∈ (send target t').1 := by
  induction targets generalizing t with
  | nil => exact ⟨Nat.le_refl t, by simp [forEach]⟩
  | cons target targets ih =>
    have hfirst := hsend target t
    obtain ⟨hclock, hrest⟩ := ih (send target t).2
    refine ⟨by simp only [forEach]; omega, fun s hs => ?_⟩
    rcases List.mem_append.1 hs with hs | hs
    · exact ⟨target, List.mem_cons_self, t, Nat.le_refl t, hs⟩
    · obtain ⟨other, hother, t', ht', hs⟩ := hrest s hs
      exact ⟨other, List.mem_cons_of_mem _ hother, t', by omega, hs⟩

end

/-! ## Every signal -/

/-- The read at which the reap begins the scan whose targets the signal goes to: one for each
signal. -/
def scanStart (reads : Nat → Machine) (selfPid : Pid) (base : List FileName) (t : Nat) :
    Signal → Nat
  | .term => (ancestorPids reads selfPid t).2
  | .kill =>
    let ancestors := ancestorPids reads selfPid t
    let targets := scanWithStarttime reads selfPid base ancestors.2
    (forEach (signalIfUnchanged reads base selfPid ancestors.1 .term) targets.1 targets.2).2

/-- The scan begun at `since` found the process signalled, and the pid's start time is the one it
read until the signal goes out. -/
def Unchanged (h : History) (scan : List ScanEntry × Nat) (since : Nat) (s : Sent) : Prop :=
  ∃ e ∈ scan.1, e.pid = s.pid ∧ ∃ scanned, since ≤ scanned ∧ scanned < scan.2 ∧ scan.2 ≤ s.at_ ∧
    ∀ i, scanned ≤ i → i ≤ s.at_ → (h.reads i).pidStarttime s.pid = some e.starttime

/-- The process signalled may be, is the one the scan found, and its working directory is `cwd` at
the read before the one its signal goes out on, its own recheck's. -/
structure Rechecked (h : History) (selfPid : Pid) (ancestors : List Pid) (base : List FileName)
    (since : Nat) (cwd : Cwd) (s : Sent) : Prop where
  spared : 1 < s.pid ∧ s.pid ≠ selfPid ∧ s.pid ∉ ancestors
  holder : Unchanged h (scanWithStarttime h.reads selfPid base since) since s
  recheck : ∃ readAt p, (scanWithStarttime h.reads selfPid base since).2 ≤ readAt ∧
    readAt + 1 = s.at_ ∧ (h.reads readAt).process s.pid = some p ∧ p.cwd = some cwd

theorem resolveLexically_clock (reads : Nat → Machine) (path : Bytes) (t : Nat) :
    t ≤ (resolveLexically reads path t).2 ∧
      (resolveLexically reads path t).2 ≤ t + (components path).length + 1 := by
  unfold resolveLexically
  split
  · dsimp only
    omega
  · have := resolveAbove_clock reads [] (components path).reverse (t + 1)
    rw [List.length_reverse] at this
    omega

theorem rooted_clock (reads : Nat → Machine) (selfPid : Pid) (base : List FileName)
    (pids : List Pid) (t : Nat) : t ≤ (rooted reads selfPid base pids t).2 := by
  induction pids generalizing t with
  | nil => exact Nat.le_refl t
  | cons pid pids ih =>
    have hrest := ih (t + 1)
    unfold rooted
    split
    · exact ih t
    · dsimp only
      split
      · omega
      · split
        · dsimp only
          omega
        · omega

theorem processesRootedUnder_clock (reads : Nat → Machine) (selfPid : Pid) (baseDir : Bytes)
    (t : Nat) : t ≤ (processesRootedUnder reads selfPid baseDir t).2 := by
  have hbase := (resolveLexically_clock reads baseDir t).1
  unfold processesRootedUnder
  split
  · next t' hresolved =>
    rw [hresolved] at hbase
    exact hbase
  · next base t' hresolved =>
    rw [hresolved] at hbase
    dsimp only at hbase
    split
    · exact Nat.le_succ_of_le hbase
    · next names _ =>
      have := rooted_clock reads selfPid base (pidsOf names) (t' + 1)
      omega

section
variable (h : History) {selfPid : Pid} {base : List FileName} {t : Nat} {s : Sent}
  {ancestors : List Pid}

theorem signalIfUnchanged_rechecked {signal : Signal} {t₀ : Nat}
    (ht : (scanWithStarttime h.reads selfPid base t₀).2 ≤ t)
    (hs : s ∈ (forEach (signalIfUnchanged h.reads base selfPid ancestors signal)
      (scanWithStarttime h.reads selfPid base t₀).1 t).1) :
    s.signal = signal ∧ ∃ cwd, Rechecked h selfPid ancestors base t₀ cwd s ∧
      isInside cwd.link base = true := by
  obtain ⟨target, htarget, t', ht', hs⟩ :=
    (forEach_read (fun _ _ => (signal_read h.reads _ _ _ _ _ _).1) _ _).2 s hs
  have hbegun := processesRootedUnder_clock h.reads selfPid (pathBuf base) t₀
  obtain ⟨scanned, hsince, hscanned, hscan⟩ := (withStarttime_read h.reads).2 target htarget
  obtain ⟨hpid, hsignal, hat, hspared, hstart, link, hlink, hinside⟩ :=
    (signal_read h.reads _ _ _ _ _ _).2 s hs
  obtain ⟨cwd, hcwd, rfl⟩ := Option.map_eq_some_iff.1 hlink
  obtain ⟨p, hp, hpcwd⟩ := Option.bind_eq_some_iff.1 hcwd
  refine ⟨hsignal, cwd, ⟨hspared, ?_, t', p, by omega, hat.symm, hp, hpcwd⟩, hinside⟩
  refine ⟨target, htarget, hpid.symm, scanned, by omega, hscanned, by omega, fun i hlo hhi => ?_⟩
  refine h.same_holder hlo hhi (hpid ▸ hscan) ?_
  rw [hat]
  exact hstart

theorem reapAuthorized_rechecked (hs : s ∈ (reapAuthorized h.reads selfPid base t).1) :
    ∃ cwd, Rechecked h selfPid (ancestorPids h.reads selfPid t).1 base
        (scanStart h.reads selfPid base t s.signal) cwd s ∧
      isInside cwd.link base = true := by
  unfold reapAuthorized at hs
  dsimp only at hs
  split at hs
  · cases hs
  · rcases List.mem_append.1 hs with hs | hs
    · obtain ⟨hsignal, hrechecked⟩ := signalIfUnchanged_rechecked h (Nat.le_refl _) hs
      rw [hsignal]
      exact hrechecked
    · obtain ⟨hsignal, hrechecked⟩ := signalIfUnchanged_rechecked h (Nat.le_refl _) hs
      rw [hsignal]
      exact hrechecked

theorem ancestorPids_clock (reads : Nat → Machine) (pid : Pid) (t : Nat) :
    t ≤ (ancestorPids reads pid t).2 := by
  have hwalk : ∀ fuel current out t found t', ancestorWalk reads fuel current out t =
      some (found, t') → t ≤ t' := by
    intro fuel
    induction fuel with
    | zero =>
      intro current out t found t' h
      cases h
    | succ fuel ih =>
      intro current out t found t' h
      unfold ancestorWalk at h
      split at h
      · cases h
        exact Nat.le_succ t
      · split at h
        · cases h
          exact Nat.le_succ t
        · exact Nat.le_of_succ_le (ih _ _ _ _ _ h)
  unfold ancestorPids
  cases h : ancestorWalk reads (UInt32.size + 1) pid [] t with
  | none => exact Nat.le_refl t
  | some r => exact hwalk _ _ _ _ _ _ h

theorem endHeld_child {reads : Nat → Machine} {child : Pid} {polls : Nat}
    (hs : s ∈ (endHeld reads child polls t).1) : s.pid = child := by
  unfold endHeld at hs
  dsimp only at hs
  split at hs
  · cases hs
  · split at hs
    · rw [mem_sendSignal hs]
    · rcases List.mem_append.1 hs with hs | hs <;> rw [mem_sendSignal hs]

theorem endHeld_clock (reads : Nat → Machine) (child : Pid) (polls t : Nat) :
    t ≤ (endHeld reads child polls t).2 := by
  have hgrace : ∀ polls t, t ≤ grace reads polls t := by
    intro polls
    induction polls with
    | zero => exact fun t => Nat.le_refl t
    | succ polls ih =>
      intro t
      unfold grace
      split
      · exact Nat.le_succ t
      · exact Nat.le_of_succ_le (ih (t + 1))
  have := hgrace polls (t + 1)
  unfold endHeld
  dsimp only
  split
  · exact Nat.le_succ t
  · split <;> (dsimp only; omega)

/-- A descendant signalled is one the snapshot found, and starts when it read. -/
theorem signalDescendants_kept {signal : Signal} {root : Pid} {t₀ : Nat}
    (ht : (descendantsOf h.reads root t₀).2 ≤ t)
    (hs : s ∈ (forEach (signalDescendantIfUnchanged h.reads selfPid ancestors signal)
      (descendantsOf h.reads root t₀).1 t).1) :
    (1 < s.pid ∧ s.pid ≠ selfPid ∧ s.pid ∉ ancestors) ∧
      Relation.TransGen (fun a b => ∃ i, t₀ ≤ i ∧ i < (descendantsOf h.reads root t₀).2 ∧
        (h.reads i).readPpid b = some a) root s.pid ∧
      Unchanged h (descendantsOf h.reads root t₀) t₀ s := by
  obtain ⟨target, htarget, t', ht', hs⟩ :=
    (forEach_read (fun _ _ => (signalDescendant_read h.reads _ _ _ _ _).1) _ _).2 s hs
  obtain ⟨hreached, scanned, hlo, hhi, hscan⟩ := descendantsOf_read h.reads htarget
  obtain ⟨hpid, -, hat, hspared, hstart⟩ := (signalDescendant_read h.reads _ _ _ _ _).2 s hs
  refine ⟨hspared, hpid ▸ hreached, target, htarget, hpid.symm, scanned, hlo, hhi, by omega,
    fun i hi hj => ?_⟩
  exact h.same_holder hi hj (hpid ▸ hscan) (hat ▸ hstart)

theorem isReapableBase_eq_some {basePath authorizedRoot : Bytes}
    (hbase : (isReapableBase h.reads basePath authorizedRoot t).1 = some base) :
    ∃ root, (h.reads t).canonicalize authorizedRoot = some root ∧
      (resolveLexically h.reads basePath (t + 1)).1 = some base ∧ root <+: base ∧ base ≠ root := by
  unfold isReapableBase at hbase
  split at hbase
  · cases hbase
  · next root hroot =>
    split at hbase
    · cases hbase
    · next resolved t' hresolved =>
      dsimp only at hbase
      split at hbase
      · next hunder =>
        cases hbase
        exact ⟨root, hroot, by rw [hresolved], hunder.2, hunder.1⟩
      · cases hbase

end

/-- A process the reap signals is one that the scan before the signal found, with the start time it
read, none of its own, and roots at its recheck at or under the base unless its directory is
mistaken for one that does; what `end_child` signals besides the held child is in the snapshot, with
the start time it read, and descends from its root; and the walks end, whatever the parents and
links. -/
theorem signals_owned (h : History) (selfPid : Pid) :
    (∀ basePath authorizedRoot t,
      ∀ s ∈ (reapProcessesRootedUnder h.reads selfPid basePath authorizedRoot t).1,
      ∃ root base cwd, (h.reads t).canonicalize authorizedRoot = some root ∧
        (resolveLexically h.reads basePath (t + 1)).1 = some base ∧ root <+: base ∧ base ≠ root ∧
        Rechecked h selfPid
          (ancestorPids h.reads selfPid (isReapableBase h.reads basePath authorizedRoot t).2).1 base
          (scanStart h.reads selfPid base (isReapableBase h.reads basePath authorizedRoot t).2
            s.signal) cwd s ∧
        (cwd.Inside base ↔ ¬cwd.Mistaken base)) ∧
    (∀ child polls root t t', (descendantsOf h.reads root t).2 ≤ t' →
      ∀ s ∈ (endChild h.reads selfPid child polls (descendantsOf h.reads root t).1 t').1,
      s.pid = child ∨
        (1 < s.pid ∧ s.pid ≠ selfPid ∧
          s.pid ∉ (ancestorPids h.reads selfPid (endHeld h.reads child polls t').2).1) ∧
        Relation.TransGen (fun a b => ∃ i, t ≤ i ∧ i < (descendantsOf h.reads root t).2 ∧
          (h.reads i).readPpid b = some a) root s.pid ∧
        Unchanged h (descendantsOf h.reads root t) t s) ∧
    (∀ pid t, (ancestorWalk h.reads (UInt32.size + 1) pid [] t).isSome = true) ∧
    (∀ parents root t,
      (descendantWalk h.reads parents (parents.length + 2) ⟨[], [], [root], t⟩).isSome = true) ∧
    ∀ path t, (resolveLexically h.reads path t).2 ≤ t + (components path).length + 1 := by
  refine ⟨fun basePath authorizedRoot t s hs => ?_, fun child polls root t t' ht' s hs => ?_,
    fun pid t => ?_, fun parents root t => ?_, fun path t => ?_⟩
  · unfold reapProcessesRootedUnder at hs
    split at hs
    · cases hs
    · next base t' hbase =>
      have hsome : (isReapableBase h.reads basePath authorizedRoot t).1 = some base := by rw [hbase]
      obtain ⟨root, hroot, hresolved, hunder, hne⟩ := isReapableBase_eq_some h hsome
      obtain ⟨cwd, hcwd, hinside⟩ := reapAuthorized_rechecked h hs
      rw [hbase]
      exact ⟨root, base, cwd, hroot, hresolved, hunder, hne, hcwd, Cwd.inside_iff hinside⟩
  · have hheld := endHeld_clock h.reads child polls t'
    have hancestors := ancestorPids_clock h.reads selfPid (endHeld h.reads child polls t').2
    unfold endChild at hs
    dsimp only at hs
    split at hs
    · exact .inl (endHeld_child hs)
    · rcases List.mem_append.1 hs with hs | hs
      · rcases List.mem_append.1 hs with hs | hs
        · exact .inl (endHeld_child hs)
        · exact .inr (signalDescendants_kept h (by omega) hs)
      · -- The second round signals after the first.
        have hterm := (forEach_read
          (fun target t => (signalDescendant_read h.reads selfPid (ancestorPids h.reads selfPid
            (endHeld h.reads child polls t').2).1 .term target t).1)
          (descendantsOf h.reads root t).1
          (ancestorPids h.reads selfPid (endHeld h.reads child polls t').2).2).1
        exact .inr (signalDescendants_kept h (by omega) hs)
  · exact ancestorWalk_ends h.reads _ pid List.nodup_nil t (by simp)
  · refine descendantWalk_ends h.reads parents _ _ ?_
    have := List.length_filter_le (fun p : Pid × Pid => p.2 ∉ ([] : List Pid)) parents
    simp only [Descent.left, List.length_cons, List.length_nil]
    omega
  · exact (resolveLexically_clock h.reads path t).2

/-! ## A directory named as a removed one -/

/-- `/r/b (deleted)`, a live directory beside the base `/r/b`. -/
def besideBase : History where
  reads _ :=
    { entries := some ["7", "self"]
      process := fun pid =>
        if pid = 7 then
          some ⟨100, some 1, some ⟨[[114], 98 :: deletedSuffix].filterMap readName, false⟩⟩
        else if pid = 5 then some ⟨90, some 1, none⟩
        else none
      canonicalize := fun path =>
        if path = [47, 114] then some ([[114]].filterMap readName)
        else if path = [47, 114, 47, 98] then some ([[114], [98]].filterMap readName)
        else none
      exited := false
      born := [(7, 100), (5, 90)] }
  recorded := by
    intro pid p hp
    dsimp only at hp
    split at hp
    · next hpid =>
      cases hp
      simp [hpid]
    · split at hp
      · next hpid =>
        cases hp
        simp [hpid]
      · cases hp
  evolves _ := .refl

theorem besideBase_signalled :
    ¬∀ (h : History) (selfPid : Pid) (basePath authorizedRoot : Bytes) (t : Nat),
      ∀ s ∈ (reapProcessesRootedUnder h.reads selfPid basePath authorizedRoot t).1,
      ∃ base cwd ancestors since, (resolveLexically h.reads basePath (t + 1)).1 = some base ∧
        Rechecked h selfPid ancestors base since cwd s ∧ cwd.Inside base := by
  intro hclaim
  obtain ⟨base, cwd, ancestors, since, hbase, hchecked, hinside⟩ :=
    hclaim besideBase 5 [47, 114, 47, 98] [47, 114] 0 ⟨7, .term, 8⟩ (by decide +kernel)
  have hresolved : (resolveLexically besideBase.reads [47, 114, 47, 98] 1).1 =
      some ([[114], [98]].filterMap readName) := by decide +kernel
  rw [hresolved] at hbase
  cases hbase
  obtain ⟨readAt, p, -, -, hp, hcwd⟩ := hchecked.recheck
  cases hp
  cases hcwd
  exact absurd hinside (by decide +kernel)

end Rigger.Reap
