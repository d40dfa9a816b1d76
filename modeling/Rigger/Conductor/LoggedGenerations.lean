import Mathlib.Data.List.Infix
import Mathlib.Logic.Function.Basic
import Rigger.Lib.Latest
import Rigger.Lib.Moment

/-!
# The generation memo (`rigger-conductor/src/logged_generations.rs`)

A process remembers the log's latest generation of each identity it asked about, and the head of
the ledger its answers are of.  Reading the head, looking an identity up, appending an entry,
reading the tail and each use of the memo are steps of their own, of any number of threads, between
which other processes append.

An answer remembered at a head is of a log no older than the one that had it (`Fresh`), so an answer
the memo gives is the log's own at some moment since that call read the head (`latest_of_memo`).
-/

namespace Rigger.Conductor.Logged

open Lib

/-- A ledger entry of the run stream: the identity it records, the generation its key names, and
where the store put it. -/
structure Entry where
  identity : String
  generation : String
  revision : Nat
  position : Nat
deriving DecidableEq

/-- The store's lookup: the newest recording of the identity. -/
def latestOf (log : List Entry) (identity : String) : Option String :=
  latest (fun e => if e.identity = identity then some e.generation else none) log

/-- The revision of the newest entry. -/
def headOf (log : List Entry) : Option Nat := log.getLast?.map Entry.revision

/-- The entries from a revision on. -/
def tailOf (log : List Entry) (start : Nat) : List Entry := log.filter fun e => start ≤ e.revision

/-! ## The memo -/

/-- `head` is the head every answer is current at, `some none` for a stream without entries, `none`
before one was read. -/
structure Memo where
  head : Option (Option Nat)
  latest : Std.ExtTreeMap String (Option String)

namespace Memo

def new : Memo := ⟨none, ∅⟩

def currentAt (m : Memo) (head : Option Nat) : Memo :=
  if m.head ≠ some head then ⟨some head, ∅⟩ else m

/-- Remember a lookup's answer, where the memo is still at the head read before it. -/
def remember (m : Memo) (identity : String) (head : Option Nat) (answer : Option String) : Memo :=
  if m.head = some head then { m with latest := m.latest.insert identity answer } else m

/-- Take the generation of an entry appended at `placed`, where the entries above the head held
before are that one alone. -/
def record (m : Memo) (identity generation : String) (placed : Option Nat)
    (held : Option (Option Nat)) (appended : Option (List Entry)) : Memo :=
  match appended with
  | some [only] =>
    if some only.position = placed ∧ m.head = held then
      ⟨some (some only.revision), m.latest.insert identity (some generation)⟩
    else new
  | _ => new

end Memo

/-! ## The threads -/

/-- Where a thread stands in a call of `latest`, or between its own append and the end of
`record`. -/
inductive Phase where
  | idle
  | asked (identity : String) (head : Option Nat)
  | unheaded (identity : String)
  | missed (identity : String) (head : Option Nat)
  | lookedUp (identity : String) (head : Option Nat) (answer : Option String)
  | placed (identity generation : String) (position : Option Nat)
  | held (identity generation : String) (position : Option Nat) (head : Option (Option Nat))
  | read (identity generation : String) (position : Option Nat) (head : Option (Option Nat))
      (appended : Option (List Entry))

/-- A read that fails answers `ok = false`. -/
inductive Move where
  | ask (identity : String) (ok : Bool)
  | check
  | lookup (ok : Bool)
  | remember
  | append (e : Entry)
  | unplaced (identity generation : String)
  | hold
  | tail (ok : Bool)
  | record

/-- The store puts every entry after those it holds. -/
def Fits (log : List Entry) (e : Entry) : Prop :=
  ∀ x ∈ log, x.revision < e.revision ∧ x.position < e.position

instance (log : List Entry) (e : Entry) : Decidable (Fits log e) :=
  inferInstanceAs (Decidable (∀ x ∈ log, _))

/-- The log, and the memo its lock guards. -/
structure Shared where
  log : List Entry
  memo : Memo

namespace Shared

/-- The entries above the head held, where there is one and the append was placed. -/
def above (s : Shared) (head : Option (Option Nat)) (position : Option Nat) (ok : Bool) :
    Option (List Entry) :=
  match head, position with
  | some revision, some _ =>
    if ok then some (tailOf s.log ((revision.map (· + 1)).getD 0)) else none
  | _, _ => none

/-- What the memo answers a thread that has read the head, as it takes the head for its own. -/
def hit (s : Shared) (identity : String) (head : Option Nat) : Option (Option String) :=
  (s.memo.currentAt head).latest[identity]?

/-- One step of a thread, none where it stands elsewhere. -/
def turn (s : Shared) : Phase → Move → Option (Shared × Phase)
  | .idle, .ask identity ok =>
    some (s, if ok then .asked identity (headOf s.log) else .unheaded identity)
  | .asked identity head, .check =>
    some ({ s with memo := s.memo.currentAt head },
      if (s.hit identity head).isSome then .idle else .missed identity head)
  | .unheaded _, .lookup _ => some (s, .idle)
  | .missed identity head, .lookup ok =>
    some (s, if ok then .lookedUp identity head (latestOf s.log identity) else .idle)
  | .lookedUp identity head answer, .remember =>
    some ({ s with memo := s.memo.remember identity head answer }, .idle)
  | .idle, .append e =>
    if Fits s.log e then
      some ({ s with log := s.log ++ [e] }, .placed e.identity e.generation (some e.position))
    else none
  | .idle, .unplaced identity generation => some (s, .placed identity generation none)
  | .placed identity generation position, .hold =>
    some (s, .held identity generation position s.memo.head)
  | .held identity generation position head, .tail ok =>
    some (s, .read identity generation position head (s.above head position ok))
  | .read identity generation position head appended, .record =>
    some ({ s with memo := s.memo.record identity generation position head appended }, .idle)
  | _, _ => none

end Shared

/-- `entry` is one another process appends. -/
inductive Act (τ : Type) where
  | entry (e : Entry)
  | thread (t : τ) (m : Move)

structure World (τ : Type) where
  shared : Shared
  threads : τ → Phase

def World.new {τ : Type} : World τ := ⟨⟨[], Memo.new⟩, fun _ => .idle⟩

abbrev World.log {τ : Type} (w : World τ) : List Entry := w.shared.log

def step {τ : Type} [DecidableEq τ] (w : World τ) : Act τ → World τ
  | .entry e =>
    if Fits w.log e then { w with shared := { w.shared with log := w.log ++ [e] } } else w
  | .thread t m =>
    match w.shared.turn (w.threads t) m with
    | some (s, p) => ⟨s, Function.update w.threads t p⟩
    | none => w

/-! ## Heads and what is of them -/

/-- Entries later in the log have later revisions and positions. -/
def Ordered (log : List Entry) : Prop :=
  log.Pairwise fun x y => x.revision < y.revision ∧ x.position < y.position

/-- The head is one the log had. -/
def Headed (log : List Entry) (head : Option Nat) : Prop := ∃ l, l <+: log ∧ headOf l = head

/-- The answer is of a log no older than the one that had the head. -/
def Fresh (log : List Entry) (head : Option Nat) (identity : String)
    (answer : Option String) : Prop :=
  ∃ l, l <+: log ∧ latestOf l identity = answer ∧ ∀ l', l' <+: log → headOf l' = head → l' <+: l

section
variable {log : List Entry} {e : Entry} {head : Option Nat} {identity : String}
  {answer : Option String}

theorem headOf_concat : headOf (log ++ [e]) = some e.revision := by
  unfold headOf
  rw [List.getLast?_concat]
  rfl

theorem latestOf_concat : latestOf (log ++ [e]) identity =
    if e.identity = identity then some e.generation else latestOf log identity := by
  unfold latestOf
  rw [latest_concat]
  split
  · rfl
  · rw [Option.none_or]

theorem Ordered.concat (h : Ordered log) (he : Fits log e) : Ordered (log ++ [e]) := by
  refine List.pairwise_append.2 ⟨h, List.pairwise_singleton _ _, fun x hx y hy => ?_⟩
  cases List.mem_singleton.1 hy
  exact he x hx

variable {l : List Entry} {only : Entry}

/-- The revisions of an ordered log tell its heads apart. -/
theorem eq_of_headOf (h : Ordered log) {l' : List Entry} (hl : l <+: log) (hl' : l' <+: log)
    (heq : headOf l = headOf l') : l = l' := by
  have hshort : ∀ {a b : List Entry}, b <+: log → a <+: b → headOf a = headOf b → a = b := by
    intro a b hb hab hhead
    obtain ⟨rest, rfl⟩ := hab
    rcases List.eq_nil_or_concat rest with rfl | ⟨rest, y, rfl⟩
    · rw [List.append_nil]
    · rw [List.concat_eq_append, ← List.append_assoc] at hb hhead
      rw [headOf_concat] at hhead
      obtain ⟨x, hx, hrev⟩ := Option.map_eq_some_iff.1 hhead
      have hordered : Ordered (a ++ rest ++ [y]) := h.sublist hb.sublist
      have hlt := (List.pairwise_append.1 hordered).2.2 x
        (List.mem_append_left _ (List.mem_of_getLast? hx)) y List.mem_cons_self
      omega
  rcases List.prefix_or_prefix_of_prefix hl hl' with hpre | hpre
  · exact hshort hl' hpre heq
  · exact (hshort hl hpre heq.symm).symm

theorem Headed.concat (h : Headed log head) : Headed (log ++ [e]) head := by
  obtain ⟨l, hl, hhead⟩ := h
  exact ⟨l, hl.trans (List.prefix_append _ _), hhead⟩

theorem headed_headOf (log : List Entry) : Headed log (headOf log) := ⟨log, List.prefix_rfl, rfl⟩

theorem fresh_now : Fresh log head identity (latestOf log identity) :=
  ⟨log, List.prefix_rfl, rfl, fun _ hl _ => hl⟩

theorem Fresh.concat (h : Fresh log head identity answer) (hordered : Ordered (log ++ [e]))
    (hhead : Headed log head) : Fresh (log ++ [e]) head identity answer := by
  obtain ⟨l, hl, hlatest, hold⟩ := h
  obtain ⟨l₀, hl₀, rfl⟩ := hhead
  refine ⟨l, hl.trans (List.prefix_append _ _), hlatest, fun l' hl' heq => ?_⟩
  have hsame := eq_of_headOf hordered hl' (hl₀.trans (List.prefix_append _ _)) heq
  exact hold l' (hsame ▸ hl₀) heq

/-- What is above a head, read in one entry, is the next one of the log. -/
theorem tailOf_eq_singleton (h : Ordered log) (hhead : Headed log head)
    (htail : tailOf log ((head.map (· + 1)).getD 0) = [only]) :
    ∃ l, headOf l = head ∧ log = l ++ [only] := by
  obtain ⟨l, ⟨rest, rfl⟩, rfl⟩ := hhead
  refine ⟨l, rfl, ?_⟩
  have habove : ∀ y ∈ rest, ((headOf l).map (· + 1)).getD 0 ≤ y.revision := by
    intro y hy
    cases hlast : headOf l with
    | none => exact Nat.zero_le _
    | some r =>
      obtain ⟨x, hx, rfl⟩ := Option.map_eq_some_iff.1 hlast
      exact ((List.pairwise_append.1 h).2.2 x (List.mem_of_getLast? hx) y hy).1
  have hbelow : ∀ x ∈ l, ¬((headOf l).map (· + 1)).getD 0 ≤ x.revision := by
    intro x hx
    obtain ⟨init, y, rfl⟩ := (List.eq_nil_or_concat l).resolve_left (List.ne_nil_of_mem hx)
    rw [List.concat_eq_append] at h hx ⊢
    have hle : x.revision ≤ y.revision := by
      rcases List.mem_append.1 hx with hx | hx
      · have hl :=
          (List.pairwise_append.1 (List.pairwise_append.1 h).1).2.2 x hx y List.mem_cons_self
        exact Nat.le_of_lt hl.1
      · cases List.mem_singleton.1 hx
        exact Nat.le_refl _
    rw [headOf_concat]
    show ¬y.revision + 1 ≤ x.revision
    omega
  unfold tailOf at htail
  rw [List.filter_append, List.filter_eq_nil_iff.2 fun x hx => by simpa using hbelow x hx,
    List.filter_eq_self.2 fun y hy => by simpa using habove y hy, List.nil_append] at htail
  rw [htail]

/-- Once the head has moved by one own entry, what is remembered of the others is as fresh. -/
theorem Fresh.advance (hordered : Ordered log) (hl : l ++ [only] <+: log)
    (hne : only.identity ≠ identity) (h : Fresh log (headOf l) identity answer) :
    Fresh log (some only.revision) identity answer := by
  obtain ⟨l', hl', hlatest, hold⟩ := h
  have hunique : ∀ l'', l'' <+: log → headOf l'' = some only.revision → l'' = l ++ [only] := by
    intro l'' hl'' heq
    exact eq_of_headOf hordered hl'' hl (heq.trans headOf_concat.symm)
  obtain ⟨rest, rfl⟩ := hold l ((List.prefix_append _ _).trans hl) rfl
  cases rest with
  | nil =>
    refine ⟨l ++ [only], hl, ?_, fun l'' hl'' heq => ?_⟩
    · rw [latestOf_concat, if_neg hne, ← hlatest, List.append_nil]
    · rw [hunique l'' hl'' heq]
  | cons y rest =>
    refine ⟨l ++ y :: rest, hl', hlatest, fun l'' hl'' heq => ?_⟩
    rw [hunique l'' hl'' heq]
    exact List.prefix_of_prefix_length_le hl hl' (by simp)

end

/-! ## The invariant -/

/-- Every answer of the memo is fresh at its head. -/
def Memo.Sound (m : Memo) (log : List Entry) : Prop :=
  ∀ head, m.head = some head → Headed log head ∧
    ∀ (identity : String) answer, m.latest[identity]? = some answer → Fresh log head identity answer

/-- The entry a thread appended is in the log, where the store placed it. -/
def Placed (log : List Entry) (identity generation : String) (position : Option Nat) : Prop :=
  ∀ n, position = some n →
    ∃ own ∈ log, own.position = n ∧ own.identity = identity ∧ own.generation = generation

/-- What a thread read holds of the log. -/
def Phase.Sound (log : List Entry) : Phase → Prop
  | .idle => True
  | .asked _ head => Headed log head
  | .unheaded _ => True
  | .missed _ head => Headed log head
  | .lookedUp identity head answer => Fresh log head identity answer ∧ Headed log head
  | .placed identity generation position => Placed log identity generation position
  | .held identity generation position head =>
    Placed log identity generation position ∧ ∀ h, head = some h → Headed log h
  | .read identity generation position head appended => ∀ only, appended = some [only] →
      some only.position = position → ∃ l, head = some (headOf l) ∧ l ++ [only] <+: log ∧
        only.identity = identity ∧ only.generation = generation

structure Shared.Sound (s : Shared) : Prop where
  ordered : Ordered s.log
  memo : s.memo.Sound s.log

structure World.Sound {τ : Type} (w : World τ) : Prop where
  shared : w.shared.Sound
  threads : ∀ t, (w.threads t).Sound w.log

section
variable {log : List Entry} {e : Entry} {m : Memo} {p : Phase}

theorem Memo.Sound.concat (h : m.Sound log) (hordered : Ordered (log ++ [e])) :
    m.Sound (log ++ [e]) := by
  intro head hhead
  obtain ⟨hheaded, hfresh⟩ := h head hhead
  exact ⟨hheaded.concat, fun identity answer hanswer =>
    (hfresh identity answer hanswer).concat hordered hheaded⟩

theorem Memo.sound_new : Memo.new.Sound log := by
  intro head hhead
  cases hhead

variable {head : Option Nat} {identity generation : String}

theorem Memo.Sound.currentAt (h : m.Sound log) (hhead : Headed log head) :
    (m.currentAt head).Sound log := by
  unfold Memo.currentAt
  split
  · intro head' heq
    cases heq
    refine ⟨hhead, fun identity answer hanswer => ?_⟩
    rw [Std.ExtTreeMap.getElem?_empty] at hanswer
    cases hanswer
  · exact h

variable {answer : Option String}

theorem getElem?_remembered {latest : Std.ExtTreeMap String (Option String)} {k : String}
    {a : Option String} (h : (latest.insert identity answer)[k]? = some a) :
    k = identity ∧ a = answer ∨ k ≠ identity ∧ latest[k]? = some a := by
  rw [Std.ExtTreeMap.getElem?_insert] at h
  simp only [Std.LawfulEqCmp.compare_eq_iff_eq] at h
  by_cases hk : identity = k
  · rw [if_pos hk] at h
    exact Or.inl ⟨hk.symm, (Option.some.inj h).symm⟩
  · rw [if_neg hk] at h
    exact Or.inr ⟨fun hc => hk hc.symm, h⟩

theorem Memo.Sound.remember (h : m.Sound log) (hfresh : Fresh log head identity answer) :
    (m.remember identity head answer).Sound log := by
  unfold Memo.remember
  split
  · next hhead =>
    intro head' heq
    obtain ⟨hheaded, hold⟩ := h head' heq
    refine ⟨hheaded, fun k a ha => ?_⟩
    rcases getElem?_remembered ha with ⟨rfl, rfl⟩ | ⟨-, ha⟩
    · have hsame : some head' = some head := heq.symm.trans hhead
      cases hsame
      exact hfresh
    · exact hold k a ha
  · exact h

/-- The memo follows an own entry that is alone above the head it held. -/
theorem Memo.Sound.record (h : m.Sound log) (hordered : Ordered log) {position : Option Nat}
    {held : Option (Option Nat)} {appended : Option (List Entry)}
    (hread : Phase.Sound log (.read identity generation position held appended)) :
    (m.record identity generation position held appended).Sound log := by
  unfold Memo.record
  split
  · next only =>
    split
    · next hcond =>
      obtain ⟨l, rfl, hl, rfl, rfl⟩ := hread only rfl hcond.1
      obtain ⟨-, hold⟩ := h _ hcond.2
      intro head heq
      cases heq
      refine ⟨⟨l ++ [only], hl, headOf_concat⟩, fun k a ha => ?_⟩
      rcases getElem?_remembered ha with ⟨rfl, rfl⟩ | ⟨hne, ha⟩
      · refine ⟨l ++ [only], hl, ?_, fun l' hl' heq => ?_⟩
        · rw [latestOf_concat, if_pos rfl]
        · rw [eq_of_headOf hordered hl' hl (heq.trans headOf_concat.symm)]
      · exact (hold k a ha).advance hordered hl fun hc => hne hc.symm
    · exact Memo.sound_new
  · exact Memo.sound_new

theorem Placed.concat {position : Option Nat} (h : Placed log identity generation position) :
    Placed (log ++ [e]) identity generation position := by
  intro n hn
  obtain ⟨own, hown, hsame⟩ := h n hn
  exact ⟨own, List.mem_append_left _ hown, hsame⟩

theorem Phase.Sound.concat (h : p.Sound log) (hordered : Ordered (log ++ [e])) :
    p.Sound (log ++ [e]) := by
  cases p with
  | idle => exact h
  | asked identity head => exact Headed.concat h
  | unheaded identity => exact h
  | missed identity head => exact Headed.concat h
  | lookedUp identity head answer => exact ⟨h.1.concat hordered h.2, h.2.concat⟩
  | placed identity generation position => exact Placed.concat h
  | held identity generation position head =>
    exact ⟨h.1.concat, fun r hr => (h.2 r hr).concat⟩
  | read identity generation position head appended =>
    intro only happended hposition
    obtain ⟨l, hhead, hl, hsame⟩ := h only happended hposition
    exact ⟨l, hhead, hl.trans (List.prefix_append _ _), hsame⟩

/-- The one entry above the head a thread held is its own, where it is at the place of its own. -/
theorem sound_read (hordered : Ordered log) {position : Nat}
    (hplaced : Placed log identity generation (some position)) (hhead : Headed log head) :
    Phase.Sound log (.read identity generation (some position)
      (some head) (some (tailOf log ((head.map (· + 1)).getD 0)))) := by
  intro only happended hposition
  obtain ⟨l, rfl, rfl⟩ := tailOf_eq_singleton hordered hhead (Option.some.inj happended)
  obtain ⟨own, hown, hsame, hidentity, hgeneration⟩ := hplaced position rfl
  have heq : own = only := by
    rcases List.mem_append.1 hown with hown | hown
    · have hlt := ((List.pairwise_append.1 hordered).2.2 own hown only List.mem_cons_self).2
      have hposition := Option.some.inj hposition
      omega
    · exact List.mem_singleton.1 hown
  subst heq
  exact ⟨l, rfl, List.prefix_rfl, hidentity, hgeneration⟩

end

variable {s' : Shared}

theorem Shared.turn_log {s : Shared} {p p' : Phase} {m : Move}
    (hturn : s.turn p m = some (s', p')) :
    s'.log = s.log ∨ ∃ e, s'.log = s.log ++ [e] := by
  unfold Shared.turn at hturn
  split at hturn
  case h_6 e =>
    split at hturn
    · cases hturn
      exact Or.inr ⟨e, rfl⟩
    · cases hturn
  case h_11 => cases hturn
  all_goals
    cases hturn
    exact Or.inl rfl

/-- After a thread's step the memo and what the thread read are of the log. -/
theorem Shared.Sound.turn {s : Shared} {p p' : Phase} {m : Move} (h : s.Sound) (hp : p.Sound s.log)
    (hturn : s.turn p m = some (s', p')) : s'.Sound ∧ p'.Sound s'.log := by
  unfold Shared.turn at hturn
  split at hturn
  case h_1 identity ok =>
    cases hturn
    refine ⟨h, ?_⟩
    cases ok with
    | true => exact headed_headOf _
    | false => exact True.intro
  case h_2 identity head =>
    cases hturn
    refine ⟨⟨h.ordered, h.memo.currentAt hp⟩, ?_⟩
    split
    · exact True.intro
    · exact hp
  case h_3 =>
    cases hturn
    exact ⟨h, True.intro⟩
  case h_4 identity head ok =>
    cases hturn
    refine ⟨h, ?_⟩
    cases ok with
    | true => exact ⟨fresh_now, hp⟩
    | false => exact True.intro
  case h_5 identity head answer =>
    cases hturn
    exact ⟨⟨h.ordered, h.memo.remember hp.1⟩, True.intro⟩
  case h_6 e =>
    split at hturn
    · next he =>
      cases hturn
      have hordered := h.ordered.concat he
      refine ⟨⟨hordered, h.memo.concat hordered⟩, fun n hn => ?_⟩
      exact ⟨e, List.mem_append_cons_self, Option.some.inj hn, rfl, rfl⟩
    · cases hturn
  case h_7 identity generation =>
    cases hturn
    refine ⟨h, fun n hn => ?_⟩
    cases hn
  case h_8 identity generation position =>
    cases hturn
    exact ⟨h, ⟨hp, fun head hhead => (h.memo head hhead).1⟩⟩
  case h_9 identity generation position head ok =>
    cases hturn
    refine ⟨h, ?_⟩
    unfold Shared.above
    split
    · next revision position =>
      cases ok with
      | true => exact sound_read h.ordered hp.1 (hp.2 revision rfl)
      | false => exact fun only happended => by cases happended
    · exact fun only happended => by cases happended
  case h_10 identity generation position head appended =>
    cases hturn
    exact ⟨⟨h.ordered, h.memo.record h.ordered hp⟩, True.intro⟩
  case h_11 => cases hturn

theorem sound_new {τ : Type} : (World.new : World τ).Sound :=
  ⟨⟨List.Pairwise.nil, Memo.sound_new⟩, fun _ => True.intro⟩

section
variable {τ : Type} [DecidableEq τ] {w : World τ}

theorem World.Sound.step (h : w.Sound) (a : Act τ) : (step w a).Sound := by
  cases a with
  | entry e =>
    simp only [Logged.step]
    split
    · next he =>
      have hordered := h.shared.ordered.concat he
      exact ⟨⟨hordered, h.shared.memo.concat hordered⟩, fun t => (h.threads t).concat hordered⟩
    · exact h
  | thread t m =>
    simp only [Logged.step]
    split
    · next s p hturn =>
      obtain ⟨hshared, hphase⟩ := h.shared.turn (h.threads t) hturn
      refine ⟨hshared, fun t' => ?_⟩
      show (Function.update w.threads t p t').Sound s.log
      by_cases ht : t' = t
      · rw [ht, Function.update_self]
        exact hphase
      · rw [Function.update_of_ne ht]
        have hordered := hshared.ordered
        rcases Shared.turn_log hturn with hlog | ⟨e, hlog⟩
        · rw [hlog]
          exact h.threads t'
        · rw [hlog] at hordered ⊢
          exact (h.threads t').concat hordered
    · exact h

theorem run_sound (acts : List (Act τ)) : (run step World.new acts : World τ).Sound :=
  run_invariant (fun _ a h => h.step a) sound_new acts

theorem step_log (w : World τ) (a : Act τ) :
    (step w a).log = w.log ∨ ∃ e, (step w a).log = w.log ++ [e] := by
  cases a with
  | entry e =>
    simp only [step]
    split
    · exact Or.inr ⟨e, rfl⟩
    · exact Or.inl rfl
  | thread t m =>
    simp only [step]
    split
    · next s p hturn => exact Shared.turn_log hturn
    · exact Or.inl rfl

/-! ## The answers of the memo -/

theorem asked_of_step {a : Act τ} {t : τ} {identity : String} {head : Option Nat}
    (h : (step w a).threads t = .asked identity head) : w.threads t = .asked identity head ∨
      a = .thread t (.ask identity true) ∧ w.threads t = .idle ∧ headOf w.log = head := by
  cases a with
  | entry e =>
    simp only [step] at h
    split at h
    · exact Or.inl h
    · exact Or.inl h
  | thread t' m =>
    simp only [step] at h
    split at h
    · next s p hturn =>
      by_cases ht : t = t'
      · subst ht
        have hphase : p = .asked identity head := by
          rw [← h]
          exact (Function.update_self t p w.threads).symm
        subst hphase
        refine Or.inr ?_
        generalize w.threads t = q at hturn ⊢
        unfold Shared.turn at hturn
        split at hturn
        case h_1 identity' ok =>
          cases ok with
          | true =>
            cases hturn
            exact ⟨rfl, rfl, rfl⟩
          | false => cases hturn
        all_goals
          first
          | cases hturn
          | (split at hturn <;> cases hturn)
      · refine Or.inl ?_
        rw [← h]
        exact (Function.update_of_ne ht p w.threads).symm
    · exact Or.inl h

theorem exists_ask (acts : List (Act τ)) {t : τ} {identity : String} {head : Option Nat}
    (h : (run step World.new acts).threads t = .asked identity head) : ∃ before during,
      acts = before ++ .thread t (.ask identity true) :: during ∧
      (run step World.new before).threads t = .idle ∧
      headOf (run step World.new before).log = head ∧
      ∀ d d', during = d ++ d' → (run step World.new
        (before ++ .thread t (.ask identity true) :: d)).threads t = .asked identity head := by
  induction acts using List.reverseRecOn with
  | nil => cases h
  | append_singleton acts a ih =>
    have hlast := h
    rw [run_append, run_cons, run_nil] at h
    rcases asked_of_step h with hbefore | ⟨rfl, hidle, hhead⟩
    · obtain ⟨before, during, rfl, hidle, hhead, hduring⟩ := ih hbefore
      refine ⟨before, during ++ [a], by simp, hidle, hhead, fun d d' heq => ?_⟩
      rcases List.eq_nil_or_concat d' with rfl | ⟨d', b, rfl⟩
      · rw [List.append_nil] at heq
        rw [← heq]
        simpa using hlast
      · rw [List.concat_eq_append, ← List.append_assoc] at heq
        exact hduring d d' (List.append_inj' heq rfl).1
    · refine ⟨acts, [], rfl, hidle, hhead, fun d d' heq => ?_⟩
      obtain ⟨rfl, rfl⟩ := List.append_eq_nil_iff.1 heq.symm
      exact hlast

/-- An answer the memo gives is the log's own at a moment of the call that asks, after it read the
head, and a generation it gives is one the log holds at that moment. -/
theorem latest_of_memo (acts : List (Act τ)) (t : τ) (identity : String) (head : Option Nat)
    (answer : Option String)
    (hasked : (run step World.new acts).threads t = .asked identity head)
    (hhit : (run step World.new acts).shared.hit identity head = some answer) :
    ∃ before during during',
      acts = before ++ .thread t (.ask identity true) :: (during ++ during') ∧
      (run step World.new before).threads t = .idle ∧
      headOf (run step World.new before).log = head ∧
      (∀ d d', during ++ during' = d ++ d' → (run step World.new
        (before ++ .thread t (.ask identity true) :: d)).threads t = .asked identity head) ∧
      latestOf (run step World.new (before ++ .thread t (.ask identity true) :: during)).log
        identity = answer ∧
      ∀ generation, answer = some generation →
        ∃ e ∈ (run step World.new (before ++ .thread t (.ask identity true) :: during)).log,
          e.identity = identity ∧ e.generation = generation := by
  obtain ⟨before, during, rfl, hidle, rfl, hduring⟩ := exists_ask acts hasked
  have hsound := run_sound (before ++ .thread t (.ask identity true) :: during)
  have hlog : (step (run step World.new before) (.thread t (.ask identity true))).log =
      (run step World.new before).log := by
    simp only [step, hidle]
    rfl
  have hgrows := log_grows step_log (run step World.new before)
    (.thread t (.ask identity true) :: during)
  rw [run_append] at hsound hhit
  -- the answer is of a log no older than the one whose head was read
  have hheaded : Headed _ (headOf (run step World.new before).log) := ⟨_, hgrows, rfl⟩
  obtain ⟨-, hfresh⟩ := hsound.shared.memo.currentAt hheaded _ (by
    unfold Memo.currentAt
    split
    · rfl
    · next h => exact not_not.1 h)
  obtain ⟨l, hl, hlatest, hold⟩ := hfresh identity answer hhit
  have hl₀ : (step (run step World.new before) (.thread t (.ask identity true))).log <+: l := by
    rw [hlog]
    exact hold _ hgrows rfl
  obtain ⟨d, d', rfl, rfl⟩ := exists_moment step_log hl₀ hl
  refine ⟨before, d, d', rfl, hidle, rfl, hduring, ?_, fun generation hgeneration => ?_⟩
  · rw [run_append]
    exact hlatest
  · rw [run_append]
    subst hgeneration
    obtain ⟨init, e, post, heq, he, -⟩ := (latest_eq_some_iff _ _ _).1 hlatest
    split at he
    · next hidentity =>
      refine ⟨e, ?_, hidentity, Option.some.inj he⟩
      rw [run_cons, heq]
      exact List.mem_append_cons_self
    · cases he

end

/-- One thread learns an identity's generation, another records an entry of a second identity, and
the first asks again. -/
def learning : List (Act Bool) :=
  [.entry ⟨"gc/a.rs", "h1", 3, 7⟩, .thread true (.ask "gc/a.rs" true), .thread true .check,
    .thread true (.lookup true), .thread true .remember,
    .thread false (.append ⟨"gc/b.rs", "h2", 5, 9⟩),
    .thread false .hold, .thread false (.tail true), .thread false .record,
    .thread true (.ask "gc/a.rs" true)]

/-- The memo follows the own entry and still answers for the other identity: the call that asks is
the last one, which read the head the own entry left. -/
theorem latest_of_memo_learning : ∃ before during during', learning =
      before ++ .thread true (.ask "gc/a.rs" true) :: (during ++ during') ∧
    headOf (run step World.new before).log = some 5 ∧
    (∀ d d', during ++ during' = d ++ d' → (run step World.new
      (before ++ .thread true (.ask "gc/a.rs" true) :: d)).threads true =
        .asked "gc/a.rs" (some 5)) ∧
    latestOf (run step World.new (before ++ .thread true (.ask "gc/a.rs" true) :: during)).log
      "gc/a.rs" = some "h1" := by
  obtain ⟨before, during, during', heq, -, hhead, hasked, hlatest, -⟩ := latest_of_memo learning
    true "gc/a.rs" (some 5) (some "h1") rfl (by decide +kernel)
  exact ⟨before, during, during', heq, hhead, hasked, hlatest⟩

end Rigger.Conductor.Logged
