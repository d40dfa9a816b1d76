import Mathlib.Data.List.MinMax
import Mathlib.Logic.Relation
import Rigger.Lib.Ranked
import Rigger.Grounder.OutOfLine

/-!
# Id paths (`rigger-grounder/src/grounder/symbols/extract.rs`, `def_paths`)

A definition's path is that of its container, a separator and its leaf; what it is contained by is
the narrowest definition whose span alone strictly holds its own.  The longest spans are resolved
first, so a container is resolved before what it holds (`mem_done_of_container`).

An impl hands its self type down in place of its header, a Go method takes the path of its receiver
and a named value that of its container, so the container's path need not begin the definition's.
What grows from a parent to its child is the number of colons and dots of the path
(`separators_lt`): following parents ends, whichever definition of a path is followed (`forest`).
-/

namespace Rigger.Grounder

open Lib

/-! ## Ranges -/

/-- What the parsed tree gives of a definition's own node. -/
inductive DefNode where
  | implItem (selfType : String) (trait_ : Option String)
  /-- A method with a receiver, by its base type. -/
  | receiver (base : String)
  /-- A function, a generator or a class that is the value of a declarator, an assignment, a pair or
  a class field. -/
  | namedValue
  | fileScopedNamespace
  | other
deriving DecidableEq

structure DefRange where
  start : ℕ
  stop : ℕ
  leaf : String
  kind : Kind
  node : DefNode

/-- The name of an impl block. -/
def implHeader (selfType : String) : Option String → String
  | some t => "impl " ++ t ++ " for " ++ selfType
  | none => "impl " ++ selfType

/-- The definitions of a parsed file: within its source, an impl named by its header, and of one
grammar, of which none has both receivers and named values. -/
structure DefRanges where
  ranges : List DefRange
  sourceLen : ℕ
  inside : ∀ d ∈ ranges, d.start ≤ d.stop ∧ d.stop ≤ sourceLen
  headed : ∀ d ∈ ranges, ∀ selfType trait_, d.node = .implItem selfType trait_ →
    d.leaf = implHeader selfType trait_
  oneGrammar : (∀ d ∈ ranges, d.node ≠ .namedValue) ∨ ∀ d ∈ ranges, ∀ base, d.node ≠ .receiver base

/-! ## Containers -/

/-- A range of bytes, by its start and its end. -/
abbrev Span := ℕ × ℕ

def Span.len (s : Span) : ℕ := s.2 - s.1

def Span.holds (s : Span) (at_ : ℕ) : Prop := s.1 ≤ at_ ∧ at_ ≤ s.2

instance (s : Span) (at_ : ℕ) : Decidable (s.holds at_) := instDecidableAnd

def containerOf (spans : List Span) (i : ℕ) : Option ℕ :=
  spans[i]?.bind fun inner =>
    ((spans.zipIdx.filter fun s => s.1 ≠ inner ∧ s.1.holds inner.1 ∧ s.1.holds inner.2 ∧
      spans.count s.1 = 1).argmin fun s => s.1.len).map Prod.snd

namespace DefRanges
variable (t : DefRanges)

/-- A file-scoped namespace reaches to the end of the source. -/
def spans : List Span :=
  t.ranges.map fun d => (d.start, if d.node = .fileScopedNamespace then t.sourceLen else d.stop)

def spanLen (i : ℕ) : ℕ := (t.spans[i]?.map Span.len).getD 0

/-- The longest spans first. -/
def order : List ℕ :=
  (List.range t.ranges.length).mergeSort fun i j => decide (t.spanLen j ≤ t.spanLen i)

end DefRanges

/-! ## Paths -/

structure Resolved where
  path : String
  prefixOut : String
  parent : Option String
deriving DecidableEq

def Resolved.empty : Resolved := ⟨"", "", none⟩

def underScope (scope : Option String) (sep leaf : String) : String :=
  match scope with
  | some scope => scope ++ sep ++ leaf
  | none => leaf

def separator (kind : Kind) : String :=
  if kind = .field ∨ kind = .property then "." else "::"

/-- What an impl's self type and trait are named by in the paths of what it holds. -/
def implScope (selfType : String) : Option String → String
  | some t => "<" ++ selfType ++ " as " ++ t ++ ">"
  | none => selfType

/-- One definition, given its container. -/
def resolveIn (d : DefRange) (container : Option (DefRange × Resolved)) : Resolved :=
  let scope := container.map fun c => c.2.prefixOut
  let own : String × Option String :=
    match d.node, container with
    | .namedValue, some (c, r) =>
      if d.leaf = c.leaf then (r.path, r.parent)
      else (underScope scope (separator d.kind) d.leaf, some r.path)
    | .receiver base, container =>
      (base ++ "::" ++ d.leaf, container.map fun c => c.2.path)
    | _, container => (underScope scope (separator d.kind) d.leaf, container.map fun c => c.2.path)
  { path := own.1
    prefixOut :=
      match d.node with
      | .implItem selfType trait_ => underScope scope "::" (implScope selfType trait_)
      | _ => own.1
    parent := own.2 }

section
variable (t : DefRanges)

/-- The container of the definition at `i`, with what it resolved to. -/
def containerIn (resolved : List Resolved) (i : ℕ) : Option (DefRange × Resolved) :=
  (containerOf t.spans i).bind fun c =>
    t.ranges[c]?.map fun d => (d, resolved[c]?.getD Resolved.empty)

def resolveAt (resolved : List Resolved) (i : ℕ) : List Resolved :=
  match t.ranges[i]? with
  | some d => resolved.set i (resolveIn d (containerIn t resolved i))
  | none => resolved

def resolveAll : List Resolved :=
  t.order.foldl (resolveAt t) (List.replicate t.ranges.length Resolved.empty)

/-- A method's parent is the definition at its receiver's path, where one is. -/
def parentOf (paths : List String) (d : DefRange) (r : Resolved) : Option String :=
  match d.node with
  | .receiver base => if paths.contains base then some base else none
  | _ => r.parent

/-- Each definition's path, and its parent's. -/
def defPaths : List (String × Option String) :=
  let resolved := resolveAll t
  (t.ranges.zip resolved).map fun x => (x.2.path, parentOf (resolved.map Resolved.path) x.1 x.2)

end

/-! ## Containers come first -/

theorem spanLen_lt_of_container {t : DefRanges} {i c : ℕ} (h : containerOf t.spans i = some c) :
    c < t.ranges.length ∧ t.spanLen i < t.spanLen c := by
  unfold containerOf at h
  obtain ⟨inner, hinner, hmin⟩ := Option.bind_eq_some_iff.1 h
  obtain ⟨⟨outer, j⟩, houter, rfl⟩ := Option.map_eq_some_iff.1 hmin
  have hmem := List.argmin_mem houter
  rw [List.mem_filter, List.mem_zipIdx_iff_getElem?, decide_eq_true_eq] at hmem
  obtain ⟨hat, hne, ⟨hstart, -⟩, ⟨-, hstop⟩, -⟩ := hmem
  have hlt : j < t.ranges.length := by
    have hj := (List.getElem?_eq_some_iff.1 hat).1
    rwa [DefRanges.spans, List.length_map] at hj
  have hwithin : inner.1 ≤ inner.2 := by
    obtain ⟨hi, heq⟩ := List.getElem?_eq_some_iff.1 hinner
    unfold DefRanges.spans at heq hi
    rw [List.getElem_map] at heq
    obtain ⟨hle, hsource⟩ := t.inside _ (List.getElem_mem (by simpa using hi))
    rw [← heq]
    dsimp only
    split
    · exact Nat.le_trans hle hsource
    · exact hle
  have hdiff : outer.1 ≠ inner.1 ∨ outer.2 ≠ inner.2 := by
    by_contra hsame
    rw [not_or, not_not, not_not] at hsame
    exact hne (Prod.ext hsame.1 hsame.2)
  refine ⟨hlt, ?_⟩
  unfold DefRanges.spanLen
  rw [hinner, show t.spans[(outer, j).2]? = some outer from hat]
  show inner.2 - inner.1 < outer.2 - outer.1
  have hstart : outer.1 ≤ inner.1 := hstart
  have hstop : inner.2 ≤ outer.2 := hstop
  omega

theorem perm_order (t : DefRanges) : t.order.Perm (List.range t.ranges.length) :=
  List.mergeSort_perm _ _

theorem pairwise_order (t : DefRanges) :
    t.order.Pairwise fun i j => t.spanLen j ≤ t.spanLen i :=
  pairwise_mergeSort_key (fun i => OrderDual.toDual (t.spanLen i)) _

variable {done rest : List ℕ}

/-- Where a definition is resolved, its container has been. -/
theorem mem_done_of_container {t : DefRanges} {i c : ℕ} (h : containerOf t.spans i = some c)
    (horder : t.order = done ++ i :: rest) : c ∈ done := by
  obtain ⟨hlt, hlen⟩ := spanLen_lt_of_container h
  have hmem : c ∈ done ++ i :: rest :=
    horder ▸ (perm_order t).mem_iff.2 (List.mem_range.2 hlt)
  rcases List.mem_append.1 hmem with hmem | hmem
  · exact hmem
  · rcases List.mem_cons.1 hmem with rfl | hmem
    · exact absurd hlen (Nat.lt_irrefl _)
    · have hsorted := pairwise_order t
      rw [horder, List.pairwise_append] at hsorted
      have hle := List.rel_of_pairwise_cons hsorted.2.1 hmem
      omega

theorem acyclic_container (t : DefRanges) (i : ℕ) :
    ¬Relation.TransGen (fun i c => containerOf t.spans i = some c) i i := by
  have hlonger : ∀ {j}, Relation.TransGen (fun i c => containerOf t.spans i = some c) i j →
      t.spanLen i < t.spanLen j := by
    intro j h
    induction h with
    | single hc => exact (spanLen_lt_of_container hc).2
    | tail _ hc ih => exact Nat.lt_trans ih (spanLen_lt_of_container hc).2
  exact fun h => Nat.lt_irrefl _ (hlonger h)

/-! ## What the definitions resolve to -/

/-- The definition at `i` resolves as its container's does. -/
def ResolvedAt (t : DefRanges) (resolved : List Resolved) (i : ℕ) : Prop :=
  ∃ d, t.ranges[i]? = some d ∧ resolved[i]? = some (resolveIn d (containerIn t resolved i))

theorem containerIn_congr {t : DefRanges} {resolved resolved' : List Resolved} {i : ℕ}
    (h : ∀ c, containerOf t.spans i = some c → resolved'[c]? = resolved[c]?) :
    containerIn t resolved' i = containerIn t resolved i := by
  unfold containerIn
  cases hc : containerOf t.spans i with
  | none => rfl
  | some c =>
    rw [Option.bind_some, Option.bind_some, h c hc]

theorem resolvedAt_foldl {t : DefRanges} (horder : t.order = done ++ rest) :
    let resolved := done.foldl (resolveAt t) (List.replicate t.ranges.length Resolved.empty)
    resolved.length = t.ranges.length ∧ ∀ i ∈ done, ResolvedAt t resolved i := by
  induction done using List.reverseRecOn generalizing rest with
  | nil => simp
  | append_singleton done j ih =>
    have horder' : t.order = done ++ j :: rest := by rw [horder]; simp
    obtain ⟨hlength, hdone⟩ := ih horder'
    have hnodup : (done ++ j :: rest).Nodup :=
      horder' ▸ (perm_order t).nodup_iff.2 List.nodup_range
    have hfresh : j ∉ done := fun hj =>
      (List.nodup_append.1 hnodup).2.2 j hj j List.mem_cons_self rfl
    have hj : j < t.ranges.length := by
      have hmem : j ∈ t.order := horder' ▸ List.mem_append_cons_self
      exact List.mem_range.1 ((perm_order t).mem_iff.1 hmem)
    have hd := List.getElem?_eq_getElem hj
    rw [List.foldl_append, List.foldl_cons, List.foldl_nil]
    generalize done.foldl (resolveAt t) (List.replicate t.ranges.length Resolved.empty) = resolved
      at hlength hdone
    have hset : resolveAt t resolved j =
        resolved.set j (resolveIn t.ranges[j] (containerIn t resolved j)) := by
      rw [resolveAt, hd]
    rw [hset]
    refine ⟨by rw [List.length_set, hlength], fun i hi => ?_⟩
    -- what was resolved stays, so each container answers as it did
    have hkept : ∀ c ∈ done, (resolved.set j (resolveIn t.ranges[j]
        (containerIn t resolved j)))[c]? = resolved[c]? := by
      intro c hc
      refine List.getElem?_set_ne ?_
      rintro rfl
      exact hfresh hc
    have hsame : ∀ i, (∀ c, containerOf t.spans i = some c → c ∈ done) →
        containerIn t (resolved.set j (resolveIn t.ranges[j] (containerIn t resolved j))) i =
          containerIn t resolved i := by
      intro i hcontainer
      exact containerIn_congr fun c hc => hkept c (hcontainer c hc)
    rcases List.mem_append.1 hi with hi | hi
    · obtain ⟨d, hrange, hresolved⟩ := hdone i hi
      obtain ⟨before, after, hsplit⟩ := List.append_of_mem hi
      have hcontainer : ∀ c, containerOf t.spans i = some c → c ∈ done := by
        intro c hc
        have hbefore : t.order = before ++ i :: (after ++ j :: rest) := by
          rw [horder', hsplit]
          simp
        exact hsplit ▸ List.mem_append_left _ (mem_done_of_container hc hbefore)
      refine ⟨d, hrange, ?_⟩
      rw [hkept i hi, hsame i hcontainer, hresolved]
    · obtain rfl := List.mem_singleton.1 hi
      refine ⟨t.ranges[i], hd, ?_⟩
      rw [hsame i fun c hc => mem_done_of_container hc horder',
        List.getElem?_set_self (by rw [hlength]; exact hj)]

theorem resolvedAt (t : DefRanges) : (resolveAll t).length = t.ranges.length ∧
    ∀ i < t.ranges.length, ResolvedAt t (resolveAll t) i := by
  obtain ⟨hlength, hdone⟩ := resolvedAt_foldl (List.append_nil t.order).symm
  exact ⟨hlength, fun i hi => hdone i ((perm_order t).mem_iff.2 (List.mem_range.2 hi))⟩

/-- What holds of a definition where it does of its container holds of all. -/
theorem forall_of_container {t : DefRanges} {P : ℕ → Prop}
    (h : ∀ i < t.ranges.length, (∀ c, containerOf t.spans i = some c → P c) → P i) :
    ∀ i < t.ranges.length, P i := by
  have hdone : ∀ done rest, t.order = done ++ rest → ∀ i ∈ done, P i := by
    intro done
    induction done using List.reverseRecOn with
    | nil => simp
    | append_singleton done j ih =>
      intro rest horder i hi
      have horder' : t.order = done ++ j :: rest := by rw [horder]; simp
      rcases List.mem_append.1 hi with hi | hi
      · exact ih (j :: rest) horder' i hi
      · obtain rfl := List.mem_singleton.1 hi
        have hmem : i ∈ t.order := horder' ▸ List.mem_append_cons_self
        exact h i (List.mem_range.1 ((perm_order t).mem_iff.1 hmem)) fun c hc =>
          ih (i :: rest) horder' c (mem_done_of_container hc horder')
  exact fun i hi => hdone t.order [] (by simp) i ((perm_order t).mem_iff.2 (List.mem_range.2 hi))

/-! ## What grows from a parent to its child -/

/-- The colons and dots of a path. -/
def separators (path : String) : ℕ := path.toList.countP fun c => c = ':' ∨ c = '.'

theorem separators_append (a b : String) : separators (a ++ b) = separators a + separators b := by
  unfold separators
  rw [String.toList_append, List.countP_append]

theorem separators_separator (kind : Kind) :
    1 ≤ separators (separator kind) ∧ separators (separator kind) ≤ separators "::" := by
  unfold separator
  split <;> decide

theorem separators_impl (selfType : String) (trait_ : Option String) :
    separators (implHeader selfType trait_) = separators (implScope selfType trait_) := by
  have himpl : separators "impl " = 0 := by decide
  have hfor : separators " for " = 0 := by decide
  have hopen : separators "<" = 0 := by decide
  have has : separators " as " = 0 := by decide
  have hclose : separators ">" = 0 := by decide
  cases trait_ with
  | none => rw [implHeader, implScope, separators_append, himpl, Nat.zero_add]
  | some t =>
    rw [implHeader, implScope]
    simp only [separators_append, himpl, hfor, hopen, has, hclose]
    omega

/-- The prefix a definition hands down has its path's separators at least, and, unless it is a
method with a receiver, its parent has fewer. -/
structure Deeper (d : DefRange) (r : Resolved) : Prop where
  handed : separators r.path ≤ separators r.prefixOut
  above : (∀ base, d.node ≠ .receiver base) → ∀ p, r.parent = some p →
    separators p < separators r.path

variable {container : Option (DefRange × Resolved)} {d : DefRange}

theorem resolveIn_of_plain (hreceiver : ∀ base, d.node ≠ .receiver base)
    (hvalue : d.node = .namedValue → ∀ c r, container = some (c, r) → d.leaf ≠ c.leaf) :
    (resolveIn d container).path =
        underScope (container.map fun c => c.2.prefixOut) (separator d.kind) d.leaf ∧
      (resolveIn d container).parent = container.map fun c => c.2.path := by
  unfold resolveIn
  cases hnode : d.node with
  | receiver base => exact absurd hnode (hreceiver base)
  | namedValue =>
    cases container with
    | none => exact ⟨rfl, rfl⟩
    | some x =>
      obtain ⟨c, r⟩ := x
      simp only [if_neg (hvalue hnode c r rfl), Option.map_some, and_self]
  | implItem | fileScopedNamespace | other => exact ⟨rfl, rfl⟩

theorem resolveIn_of_namedValue {c : DefRange} {r : Resolved} (hnode : d.node = .namedValue)
    (hleaf : d.leaf = c.leaf) : resolveIn d (some (c, r)) = ⟨r.path, r.path, r.parent⟩ := by
  unfold resolveIn
  rw [hnode]
  simp only [if_pos hleaf]

theorem resolveIn_of_receiver {base : String} (hnode : d.node = .receiver base)
    (container : Option (DefRange × Resolved)) :
    (resolveIn d container).path = base ++ "::" ++ d.leaf ∧
      (resolveIn d container).prefixOut = base ++ "::" ++ d.leaf := by
  unfold resolveIn
  rw [hnode]
  exact ⟨rfl, rfl⟩

theorem prefixOut_of_impl {selfType : String} {trait_ : Option String}
    (hnode : d.node = .implItem selfType trait_) (container : Option (DefRange × Resolved)) :
    (resolveIn d container).prefixOut =
      underScope (container.map fun c => c.2.prefixOut) "::" (implScope selfType trait_) := by
  unfold resolveIn
  rw [hnode]

theorem prefixOut_of_not_impl (hnode : ∀ selfType trait_,
      d.node ≠ .implItem selfType trait_) (container : Option (DefRange × Resolved)) :
    (resolveIn d container).prefixOut = (resolveIn d container).path := by
  unfold resolveIn
  cases hd : d.node with
  | implItem selfType trait_ => exact absurd hd (hnode selfType trait_)
  | receiver | namedValue | fileScopedNamespace | other => rfl

theorem separators_underScope (scope : Option String) (sep leaf : String) :
    separators (underScope scope sep leaf) =
      (scope.map fun s => separators s + separators sep).getD 0 + separators leaf := by
  cases scope with
  | none =>
    rw [underScope, Option.map_none, Option.getD_none, Nat.zero_add]
  | some s =>
    rw [underScope, separators_append, separators_append, Option.map_some, Option.getD_some]

/-- A definition whose path is its container's prefix, a separator and its leaf. -/
theorem deeper_of_plain (hheaded : ∀ selfType trait_, d.node = .implItem selfType trait_ →
      d.leaf = implHeader selfType trait_)
    (hcontainer : ∀ c r, container = some (c, r) → Deeper c r)
    (hreceiver : ∀ base, d.node ≠ .receiver base)
    (hvalue : d.node = .namedValue → ∀ c r, container = some (c, r) → d.leaf ≠ c.leaf) :
    Deeper d (resolveIn d container) := by
  obtain ⟨hpath, hparent⟩ := resolveIn_of_plain hreceiver hvalue
  obtain ⟨hone, htwo⟩ := separators_separator d.kind
  refine ⟨?_, fun _ p hp => ?_⟩
  · by_cases himpl : ∃ selfType trait_, d.node = .implItem selfType trait_
    · obtain ⟨selfType, trait_, hnode⟩ := himpl
      rw [hpath, prefixOut_of_impl hnode, separators_underScope, separators_underScope,
        hheaded selfType trait_ hnode, separators_impl]
      cases container with
      | none => exact Nat.le_refl _
      | some x =>
        simp only [Option.map_some, Option.getD_some]
        omega
    · rw [prefixOut_of_not_impl fun selfType trait_ hnode => himpl ⟨selfType, trait_, hnode⟩]
  · rw [hparent] at hp
    obtain ⟨⟨c, r⟩, hc, rfl⟩ := Option.map_eq_some_iff.1 hp
    have hhanded := (hcontainer c r hc).handed
    rw [hpath, hc, separators_underScope]
    simp only [Option.map_some, Option.getD_some]
    omega

theorem deeper_resolveIn (hheaded : ∀ selfType trait_, d.node = .implItem selfType trait_ →
      d.leaf = implHeader selfType trait_)
    (hcontainer : ∀ c r, container = some (c, r) → Deeper c r)
    (hgrammar : d.node = .namedValue → ∀ c r, container = some (c, r) →
      ∀ base, c.node ≠ .receiver base) : Deeper d (resolveIn d container) := by
  by_cases hreceiver : ∃ base, d.node = .receiver base
  · obtain ⟨base, hnode⟩ := hreceiver
    obtain ⟨hpath, hprefix⟩ := resolveIn_of_receiver hnode container
    exact ⟨by rw [hpath, hprefix], fun hnot => absurd hnode (hnot base)⟩
  · by_cases hvalue : d.node = .namedValue ∧ ∃ c r, container = some (c, r) ∧ d.leaf = c.leaf
    · obtain ⟨hnode, c, r, rfl, hleaf⟩ := hvalue
      rw [resolveIn_of_namedValue hnode hleaf]
      exact ⟨Nat.le_refl _, fun _ p hp => (hcontainer c r rfl).above (hgrammar hnode c r rfl) p hp⟩
    · exact deeper_of_plain hheaded hcontainer (fun base hnode => hreceiver ⟨base, hnode⟩)
        fun hnode c r hc hleaf => hvalue ⟨hnode, c, r, hc, hleaf⟩

theorem parent_resolveIn {p : String} (h : (resolveIn d container).parent = some p) :
    ∃ c r, container = some (c, r) ∧ (p = r.path ∨ r.parent = some p) := by
  unfold resolveIn at h
  cases container with
  | none => cases hnode : d.node <;> rw [hnode] at h <;> cases h
  | some x =>
    obtain ⟨c, r⟩ := x
    refine ⟨c, r, rfl, ?_⟩
    cases hnode : d.node with
    | namedValue =>
      rw [hnode] at h
      dsimp only at h
      split at h
      · exact .inr h
      · exact .inl (Option.some.inj h).symm
    | implItem | receiver | fileScopedNamespace | other =>
      rw [hnode] at h
      exact .inl (Option.some.inj h).symm

/-! ## The forest -/

section
variable {t : DefRanges} {r : Resolved} {i : ℕ} {d : DefRange} {p : String}

theorem containerIn_eq_some {c : DefRange} (h : containerIn t (resolveAll t) i = some (c, r)) :
    ∃ j, containerOf t.spans i = some j ∧ t.ranges[j]? = some c ∧ (resolveAll t)[j]? = some r := by
  unfold containerIn at h
  obtain ⟨j, hj, hmap⟩ := Option.bind_eq_some_iff.1 h
  obtain ⟨d, hd, heq⟩ := Option.map_eq_some_iff.1 hmap
  cases heq
  have hlt : j < (resolveAll t).length := by
    rw [(resolvedAt t).1]
    exact (List.getElem?_eq_some_iff.1 hd).1
  refine ⟨j, hj, hd, ?_⟩
  rw [List.getElem?_eq_getElem hlt, Option.getD_some]

/-- The definition at `i` and what it resolves to. -/
def Is (t : DefRanges) (i : ℕ) (d : DefRange) (r : Resolved) : Prop :=
  t.ranges[i]? = some d ∧ (resolveAll t)[i]? = some r

theorem Is.eq (h : Is t i d r) : r = resolveIn d (containerIn t (resolveAll t) i) := by
  obtain ⟨hd, hr⟩ := h
  obtain ⟨d', hd', hr'⟩ := (resolvedAt t).2 i (List.getElem?_eq_some_iff.1 hd).1
  rw [hd] at hd'
  cases hd'
  rw [hr] at hr'
  exact Option.some.inj hr'

theorem deeper (h : Is t i d r) : Deeper d r := by
  refine forall_of_container (P := fun i => ∀ d r, Is t i d r → Deeper d r) ?_ i
    (List.getElem?_eq_some_iff.1 h.1).1 d r h
  intro i hi hcontainer d r h
  rw [h.eq]
  refine deeper_resolveIn (t.headed d (List.mem_of_getElem? h.1)) (fun c r' hc => ?_)
    fun hvalue c r' hc => ?_
  · obtain ⟨j, hj, hcr⟩ := containerIn_eq_some hc
    exact hcontainer j hj c r' hcr
  · obtain ⟨j, -, hcr⟩ := containerIn_eq_some hc
    exact t.oneGrammar.resolve_left (fun hnone => hnone d (List.mem_of_getElem? h.1) hvalue) c
      (List.mem_of_getElem? hcr.1)

theorem parent_is_path (h : Is t i d r) (hp : r.parent = some p) :
    p ∈ (resolveAll t).map Resolved.path := by
  refine forall_of_container (P := fun i => ∀ d r, Is t i d r → ∀ p, r.parent = some p →
    p ∈ (resolveAll t).map Resolved.path) ?_ i (List.getElem?_eq_some_iff.1 h.1).1 d r h p hp
  intro i hi hcontainer d r h p hp
  rw [h.eq] at hp
  obtain ⟨c, r', hc, hparent⟩ := parent_resolveIn hp
  obtain ⟨j, hj, hcr⟩ := containerIn_eq_some hc
  rcases hparent with rfl | hparent
  · exact List.mem_map.2 ⟨r', List.mem_of_getElem? hcr.2, rfl⟩
  · exact hcontainer j hj c r' hcr p hparent

variable {x : String × Option String}

theorem mem_defPaths : x ∈ defPaths t ↔
    ∃ i d r, Is t i d r ∧ x = (r.path, parentOf ((resolveAll t).map Resolved.path) d r) := by
  unfold defPaths
  rw [List.mem_map]
  constructor
  · rintro ⟨⟨d, r⟩, hmem, rfl⟩
    obtain ⟨i, hi⟩ := List.mem_iff_getElem?.1 hmem
    obtain ⟨hd, hr⟩ := List.getElem?_zip_eq_some.1 hi
    exact ⟨i, d, r, ⟨hd, hr⟩, rfl⟩
  · rintro ⟨i, d, r, ⟨hd, hr⟩, rfl⟩
    exact ⟨(d, r), List.mem_iff_getElem?.2 ⟨i, List.getElem?_zip_eq_some.2 ⟨hd, hr⟩⟩, rfl⟩

theorem mem_paths : p ∈ (resolveAll t).map Resolved.path ↔ ∃ y ∈ defPaths t, y.1 = p := by
  rw [List.mem_map]
  constructor
  · rintro ⟨r, hr, rfl⟩
    obtain ⟨i, hi⟩ := List.mem_iff_getElem?.1 hr
    have hlt : i < t.ranges.length := by
      rw [← (resolvedAt t).1]
      exact (List.getElem?_eq_some_iff.1 hi).1
    exact ⟨_, mem_defPaths.2 ⟨i, t.ranges[i], r, ⟨List.getElem?_eq_getElem hlt, hi⟩, rfl⟩, rfl⟩
  · rintro ⟨y, hy, rfl⟩
    obtain ⟨i, d, r, h, rfl⟩ := mem_defPaths.1 hy
    exact ⟨r, List.mem_of_getElem? h.2, rfl⟩

theorem parentOf_spec (h : Is t i d r)
    (hp : parentOf ((resolveAll t).map Resolved.path) d r = some p) :
    p ∈ (resolveAll t).map Resolved.path ∧ separators p < separators r.path := by
  by_cases hreceiver : ∃ base, d.node = .receiver base
  · obtain ⟨base, hnode⟩ := hreceiver
    unfold parentOf at hp
    rw [hnode] at hp
    dsimp only at hp
    split at hp
    · next hmem =>
      cases hp
      have htwo : separators "::" = 2 := by decide
      refine ⟨List.contains_iff_mem.1 hmem, ?_⟩
      rw [h.eq, (resolveIn_of_receiver hnode _).1, separators_append, separators_append]
      omega
    · cases hp
  · have hparent : r.parent = some p := by
      unfold parentOf at hp
      cases hnode : d.node with
      | receiver base => exact absurd ⟨base, hnode⟩ hreceiver
      | implItem | namedValue | fileScopedNamespace | other =>
        rw [hnode] at hp
        exact hp
    exact ⟨parent_is_path h hparent, (deeper h).above (fun base hnode => hreceiver ⟨base, hnode⟩) p
      hparent⟩

theorem separators_lt (hx : x ∈ defPaths t) (hp : x.2 = some p) :
    separators p < separators x.1 := by
  obtain ⟨i, d, r, h, rfl⟩ := mem_defPaths.1 hx
  exact (parentOf_spec h hp).2

end

/-- Each definition is resolved once, after its container; a container is in no cycle; each parent
is the path of a definition, and following parents ends. -/
structure Forest (t : DefRanges) : Prop where
  once : t.order.Perm (List.range t.ranges.length)
  after : ∀ i c, containerOf t.spans i = some c → ∀ done rest, t.order = done ++
    i :: rest → c ∈ done
  acyclic : ∀ i, ¬Relation.TransGen (fun i c => containerOf t.spans i = some c) i i
  parents : ∀ x ∈ defPaths t, ∀ p, x.2 = some p → ∃ y ∈ defPaths t, y.1 = p
  ends : WellFounded fun p q => (q, some p) ∈ defPaths t

theorem forest (t : DefRanges) : Forest t where
  once := perm_order t
  after _ _ h _ _ horder := mem_done_of_container h horder
  acyclic := acyclic_container t
  parents x hx p hp := by
    obtain ⟨i, d, r, h, rfl⟩ := mem_defPaths.1 hx
    exact mem_paths.1 (parentOf_spec h hp).1
  ends := Subrelation.wf (r := InvImage (· < ·) separators) (fun {_ _} h => separators_lt h rfl)
    (InvImage.wf separators Nat.lt_wfRel.wf)

end Rigger.Grounder
