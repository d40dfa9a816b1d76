import Mathlib.Data.List.Forall2
import Mathlib.Order.Basic

/-!
# Test code by attribute (`rigger-grounder/src/grounder/symbols/extract.rs`)

An item is test code when an attribute of it compiles it only with `test` set.  For a `cfg`
predicate two facts are read off its token tree together: that it names `test`, and that it is built
of `test`, `not`, `all` and `any` alone.  A `not` turns the first around only where the second
holds.
-/

namespace Rigger.Grounder

/-! ## Token trees -/

/-- A node of a parsed attribute: a token, or a `token_tree` with its tokens. -/
inductive Token where
  | leaf (kind text : String) (named : Bool)
  | group (text : String) (children : List Token)

namespace Token

def kind : Token → String
  | leaf kind _ _ => kind
  | group _ _ => "token_tree"

def text : Token → String
  | leaf _ text _ => text
  | group text _ => text

def isNamed : Token → Bool
  | leaf _ _ named => named
  | group _ _ => true

end Token

/-- The loop of `comma_separated_groups`, with the group it collects. -/
def collectGroups (current : List Token) : List Token → List (List Token)
  | [] => if current.isEmpty then [] else [current]
  | child :: rest =>
    if child.kind = "," then current :: collectGroups [] rest
    else if child.isNamed then collectGroups (current ++ [child]) rest
    else collectGroups current rest

/-- The named children between two commas. -/
def commaSeparatedGroups (children : List Token) : List (List Token) := collectGroups [] children

variable {g cs : List Token}

theorem sublist_of_mem_collectGroups {current children : List Token}
    (h : g ∈ collectGroups current children) : g.Sublist (current ++ children) := by
  induction children generalizing current with
  | nil =>
    unfold collectGroups at h
    split at h
    · cases h
    · rw [List.mem_singleton.1 h, List.append_nil]
  | cons child rest ih =>
    unfold collectGroups at h
    split at h
    · rcases List.mem_cons.1 h with rfl | h
      · exact List.sublist_append_left _ _
      · exact ((ih h).trans (List.sublist_cons_self _ _)).trans (List.sublist_append_right _ _)
    · split at h
      · have hsub := ih h
        rwa [List.append_assoc, List.singleton_append] at hsub
      · exact (ih h).trans ((List.Sublist.refl _).append (List.sublist_cons_self _ _))

theorem sizeOf_le_of_sublist {l l' : List Token} (h : l.Sublist l') : sizeOf l ≤ sizeOf l' := by
  induction h with
  | slnil => exact Nat.le_refl _
  | cons a _ ih =>
    rw [List.cons.sizeOf_spec]
    omega
  | cons_cons a _ ih =>
    rw [List.cons.sizeOf_spec, List.cons.sizeOf_spec]
    omega

theorem sizeOf_lt_of_mem_groups {args : List Token} (hg : g ∈ commaSeparatedGroups args)
    (head : Token) (text : String) (rest : List Token) :
    sizeOf g < sizeOf (head :: Token.group text args :: rest) := by
  have hle := sizeOf_le_of_sublist (sublist_of_mem_collectGroups hg)
  rw [List.nil_append] at hle
  rw [List.cons.sizeOf_spec, List.cons.sizeOf_spec, Token.group.sizeOf_spec]
  omega

/-! ## Facts -/

/-- Whether an identifier alone is `test`, as both facts. -/
def identFacts (head : Token) : Bool × Bool := (head.text == "test", head.text == "test")

/-- Whether a group names `test`, and whether it is pure test algebra. -/
def predicateGroupFacts : List Token → Bool × Bool
  | [] => (false, false)
  | [head] => identFacts head
  | head :: .leaf _ _ _ :: _ => identFacts head
  | head :: .group _ args :: _ =>
    let facts := (commaSeparatedGroups args).attach.map fun g => predicateGroupFacts g.1
    if head.text = "not" then
      let inner := facts.head?.getD (false, false)
      (inner.2 && !inner.1, inner.2)
    else if head.text = "all" then (facts.any Prod.fst, facts.all Prod.snd)
    else if head.text = "any" then (facts.all Prod.fst, facts.all Prod.snd)
    else identFacts head
termination_by group => sizeOf group
decreasing_by exact sizeOf_lt_of_mem_groups g.2 _ _ _

def tokenTreeFacts (args : List Token) : Bool × Bool :=
  ((commaSeparatedGroups args).head?.map predicateGroupFacts).getD (false, false)

def cfgPredicateTokenTreeNamesTest (args : List Token) : Bool := (tokenTreeFacts args).1

/-- The attribute of an attribute item: its name, and the tokens of its arguments. -/
structure Attribute where
  name : String
  arguments : Option (List Token)

def attributeItemNamesTest (a : Attribute) : Bool :=
  if a.name = "test" then true
  else if a.name = "cfg" then a.arguments.any cfgPredicateTokenTreeNamesTest
  else false

section
variable (head : Token) (text : String) (args rest : List Token)

/-- The facts of a combinator, from those of its arguments. -/
theorem predicateGroupFacts_group : predicateGroupFacts (head :: .group text args :: rest) =
    let facts := (commaSeparatedGroups args).map predicateGroupFacts
    if head.text = "not" then ((tokenTreeFacts args).2 && !(tokenTreeFacts args).1,
      (tokenTreeFacts args).2)
    else if head.text = "all" then (facts.any Prod.fst, facts.all Prod.snd)
    else if head.text = "any" then (facts.all Prod.fst, facts.all Prod.snd)
    else identFacts head := by
  rw [predicateGroupFacts]
  simp only [List.map_attach_eq_pmap, List.pmap_eq_map, List.head?_map, tokenTreeFacts]

end

/-! ## Predicates -/

/-- A cfg predicate; an atom is a name, or a key with a value. -/
inductive Pred where
  | atom (key : String) (value : Option String)
  | not (p : Pred)
  | all (ps : List Pred)
  | any (ps : List Pred)

/-- A configuration: which atoms are set. -/
abbrev Cfg := String → Option String → Bool

namespace Pred

theorem induction {P : Pred → Prop} (atom : ∀ key value, P (.atom key value))
    (not : ∀ p, P p → P (.not p)) (all : ∀ ps, (∀ p ∈ ps, P p) → P (.all ps))
    (any : ∀ ps, (∀ p ∈ ps, P p) → P (.any ps)) : ∀ p, P p
  | .atom key value => atom key value
  | .not p => not p (induction atom not all any p)
  | .all ps => all ps fun p _ => induction atom not all any p
  | .any ps => any ps fun p _ => induction atom not all any p

mutual

/-- Whether the predicate holds in a configuration. -/
def holds (cfg : Cfg) : Pred → Bool
  | .atom key value => cfg key value
  | .not p => !p.holds cfg
  | .all ps => holdAll cfg ps
  | .any ps => holdAny cfg ps

def holdAll (cfg : Cfg) : List Pred → Bool
  | [] => true
  | p :: ps => p.holds cfg && holdAll cfg ps

def holdAny (cfg : Cfg) : List Pred → Bool
  | [] => false
  | p :: ps => p.holds cfg || holdAny cfg ps

end

theorem holdAll_eq (cfg : Cfg) (ps : List Pred) : holdAll cfg ps = ps.all (holds cfg) := by
  induction ps with
  | nil => rfl
  | cons p ps ih => rw [holdAll, ih, List.all_cons]

theorem holdAny_eq (cfg : Cfg) (ps : List Pred) : holdAny cfg ps = ps.any (holds cfg) := by
  induction ps with
  | nil => rfl
  | cons p ps ih => rw [holdAny, ih, List.any_cons]

variable {ps : List Pred}

theorem holds_all {cfg : Cfg} :
    (Pred.all ps).holds cfg = false ↔ ∃ p ∈ ps, p.holds cfg = false := by
  rw [holds, holdAll_eq, List.all_eq_false]
  simp

theorem holds_any {cfg : Cfg} :
    (Pred.any ps).holds cfg = false ↔ ∀ p ∈ ps, p.holds cfg = false := by
  rw [holds, holdAny_eq, List.any_eq_false]
  simp

/-- Built of `test`, `not`, `all` and `any` alone. -/
inductive Pure : Pred → Prop where
  | test (value : Option String) : Pure (.atom "test" value)
  | not {p : Pred} (h : p.Pure) : Pure (.not p)
  | all {ps : List Pred} (h : ∀ p ∈ ps, p.Pure) : Pure (.all ps)
  | any {ps : List Pred} (h : ∀ p ∈ ps, p.Pure) : Pure (.any ps)

/-- Every `not` covers only `test`, `not`, `all` and `any`. -/
inductive PureNots : Pred → Prop where
  | atom (key : String) (value : Option String) : PureNots (.atom key value)
  | not {p : Pred} (h : p.Pure) : PureNots (.not p)
  | all {ps : List Pred} (h : ∀ p ∈ ps, p.PureNots) : PureNots (.all ps)
  | any {ps : List Pred} (h : ∀ p ∈ ps, p.PureNots) : PureNots (.any ps)

end Pred

/-! ## Parses -/

def comma : Token := .leaf "," "," false

def ident (name : String) : Token := .leaf "identifier" name true

/-- The children of a `token_tree`. -/
def parens (args : List Token) : List Token :=
  .leaf "(" "(" false :: args ++ [.leaf ")" ")" false]

/-- A line or a block comment. -/
def IsComment (c : Token) : Prop :=
  ∃ kind rest, c = .leaf kind ("/" ++ rest) true ∧ (kind = "line_comment" ∨ kind = "block_comment")

/-- The items of a list, each in tokens of its own, with commas between them and perhaps one more at
the end; what `extra` names may follow it. -/
inductive Separated {α : Type} (extra : Token → Prop) (P : α → List Token → Prop) :
    List α → List Token → Prop where
  | nil {cs : List Token} (hextra : ∀ c ∈ cs, extra c) : Separated extra P [] cs
  | last {a : α} {ts : List Token} (ha : P a ts) : Separated extra P [a] ts
  | cons {a : α} {ts : List Token} {as : List α} {rest : List Token} (ha : P a ts)
      (hrest : Separated extra P as rest) : Separated extra P (a :: as) (ts ++ comma :: rest)

/-- The tokens of a predicate.  Comments may stand behind any token; only what `extra` names may
stand before a group's first, or between a combinator and its arguments. -/
inductive Parses (extra : Token → Prop) : Pred → List Token → Prop where
  | bare {key : String} {before after : List Token} (hbefore : ∀ c ∈ before, extra c)
      (hafter : ∀ c ∈ after, IsComment c) :
      Parses extra (.atom key none) (before ++ ident key :: after)
  | keyed {key value kind : String} {before between between' after : List Token}
      (hkind : kind = "string_literal" ∨ kind = "raw_string_literal")
      (hbefore : ∀ c ∈ before, extra c) (hbetween : ∀ c ∈ between, IsComment c)
      (hbetween' : ∀ c ∈ between', IsComment c) (hafter : ∀ c ∈ after, IsComment c) :
      Parses extra (.atom key (some value)) (before ++ ident key :: (between ++
        .leaf "=" "=" false :: (between' ++ .leaf kind value true :: after)))
  | not {p : Pred} {args before between after : List Token} {text : String}
      (hbefore : ∀ c ∈ before, extra c) (hbetween : ∀ c ∈ between, extra c)
      (hafter : ∀ c ∈ after, IsComment c) (hargs : Separated extra (Parses extra) [p] args) :
      Parses extra (.not p) (before ++
      ident "not" :: (between ++ .group text (parens args) :: after))
  | all {ps : List Pred} {args before between after : List Token} {text : String}
      (hbefore : ∀ c ∈ before, extra c) (hbetween : ∀ c ∈ between, extra c)
      (hafter : ∀ c ∈ after, IsComment c) (hargs : Separated extra (Parses extra) ps args) :
      Parses extra (.all ps) (before ++
      ident "all" :: (between ++ .group text (parens args) :: after))
  | any {ps : List Pred} {args before between after : List Token} {text : String}
      (hbefore : ∀ c ∈ before, extra c) (hbetween : ∀ c ∈ between, extra c)
      (hafter : ∀ c ∈ after, IsComment c) (hargs : Separated extra (Parses extra) ps args) :
      Parses extra (.any ps) (before ++
      ident "any" :: (between ++ .group text (parens args) :: after))

/-! ## Groups -/

theorem collectGroups_filter (current children : List Token) :
    collectGroups current (children.filter fun t => t.kind = "," ∨ t.isNamed) =
      collectGroups current children := by
  induction children generalizing current with
  | nil => rfl
  | cons child rest ih =>
    by_cases hcomma : child.kind = ","
    · rw [List.filter_cons_of_pos (by simp [hcomma]), collectGroups, collectGroups, if_pos hcomma,
        if_pos hcomma, ih]
    · by_cases hnamed : child.isNamed
      · rw [List.filter_cons_of_pos (by simp [hnamed]), collectGroups, collectGroups, if_neg hcomma,
          if_neg hcomma, if_pos hnamed, if_pos hnamed, ih]
      · rw [List.filter_cons_of_neg (by simp [hcomma, hnamed]), collectGroups, if_neg hcomma,
          if_neg hnamed, ih]

theorem groups_parens (args : List Token) :
    commaSeparatedGroups (parens args) = commaSeparatedGroups args := by
  unfold commaSeparatedGroups
  rw [← collectGroups_filter [] (parens args), ← collectGroups_filter [] args, parens,
    List.cons_append, List.filter_cons_of_neg (by decide), List.filter_append,
    List.filter_cons_of_neg (by decide),
    List.filter_nil, List.append_nil]

variable {ts : List Token}

theorem collectGroups_append (hts : ∀ t ∈ ts, t.kind ≠ ",") (current rest : List Token) :
    collectGroups current (ts ++ rest) =
      collectGroups (current ++ ts.filter Token.isNamed) rest := by
  induction ts generalizing current with
  | nil => simp
  | cons t ts ih =>
    obtain ⟨ht, hts⟩ := List.forall_mem_cons.1 hts
    rw [List.cons_append, collectGroups, if_neg ht]
    split
    · next hnamed =>
      rw [ih hts, List.filter_cons_of_pos hnamed, List.append_assoc]
      rfl
    · next hnamed => rw [ih hts, List.filter_cons_of_neg hnamed]

/-- The tokens of one item: no comma among them, and a named one. -/
def Item (ts : List Token) : Prop := (∀ t ∈ ts, t.kind ≠ ",") ∧ ts.filter Token.isNamed ≠ []

theorem Item.groups (h : Item ts) : commaSeparatedGroups ts = [ts.filter Token.isNamed] := by
  have heq := collectGroups_append h.1 [] []
  rw [List.append_nil, List.nil_append, collectGroups, if_neg (by simpa using h.2)] at heq
  exact heq

theorem Item.groups_comma (h : Item ts) (rest : List Token) :
    commaSeparatedGroups (ts ++ comma :: rest) =
      ts.filter Token.isNamed :: commaSeparatedGroups rest := by
  rw [commaSeparatedGroups, collectGroups_append h.1, List.nil_append, collectGroups,
    if_pos (show comma.kind = "," from rfl)]
  rfl

section
variable {text : String} {args after : List Token}

theorem facts_not {f : Bool × Bool} {left : List (Bool × Bool)}
    (h : (commaSeparatedGroups (parens args)).map predicateGroupFacts = f :: left) :
    predicateGroupFacts (ident "not" :: .group text (parens args) :: after) =
      (f.2 && !f.1, f.2) := by
  have hinner : tokenTreeFacts (parens args) = f := by
    rw [tokenTreeFacts, ← List.head?_map, h]
    rfl
  rw [predicateGroupFacts_group, hinner]
  rfl

variable {facts : List (Bool × Bool)}

theorem facts_all (h : (commaSeparatedGroups (parens args)).map predicateGroupFacts = facts) :
    predicateGroupFacts (ident "all" :: .group text (parens args) :: after) =
      (facts.any Prod.fst, facts.all Prod.snd) := by
  rw [predicateGroupFacts_group, h]
  rfl

theorem facts_any (h : (commaSeparatedGroups (parens args)).map predicateGroupFacts = facts) :
    predicateGroupFacts (ident "any" :: .group text (parens args) :: after) =
      (facts.all Prod.fst, facts.all Prod.snd) := by
  rw [predicateGroupFacts_group, h]
  rfl

end

theorem kind_of_comments (h : ∀ c ∈ cs, IsComment c) : ∀ c ∈ cs, c.kind ≠ "," := by
  intro c hc
  obtain ⟨kind, rest, rfl, rfl | rfl⟩ := h c hc
  · exact (by decide : "line_comment" ≠ ",")
  · exact (by decide : "block_comment" ≠ ",")

theorem named_of_comments (h : ∀ c ∈ cs, IsComment c) : cs.filter Token.isNamed = cs := by
  refine List.filter_eq_self.2 fun c hc => ?_
  obtain ⟨kind, rest, rfl, -⟩ := h c hc
  rfl

/-- A combinator's tokens, between comments. -/
theorem item_combinator {name text : String} {args before between after : List Token}
    (hbefore : ∀ c ∈ before, IsComment c) (hbetween : ∀ c ∈ between, IsComment c)
    (hafter : ∀ c ∈ after, IsComment c) :
    Item (before ++ ident name :: (between ++ .group text (parens args) :: after)) ∧
      (before ++ ident name :: (between ++ .group text (parens args) :: after)).filter
      Token.isNamed =
        before ++ ident name :: (between ++ .group text (parens args) :: after) := by
  have hnamed : (before ++ ident name :: (between ++ .group text (parens args) :: after)).filter
      Token.isNamed = before ++ ident name :: (between ++ .group text (parens args) :: after) := by
    rw [List.filter_append, named_of_comments hbefore, List.filter_cons_of_pos rfl,
      List.filter_append, named_of_comments hbetween, List.filter_cons_of_pos rfl,
      named_of_comments hafter]
  refine ⟨⟨?_, by rw [hnamed]; simp⟩, hnamed⟩
  simp only [List.forall_mem_append, List.forall_mem_cons]
  exact ⟨kind_of_comments hbefore, (by decide : "identifier" ≠ ","),
    kind_of_comments hbetween, (by decide : "token_tree" ≠ ","), kind_of_comments hafter⟩

section
variable {extra : Token → Prop} (hextra : ∀ c, extra c → IsComment c)
include hextra

theorem comments_of_extra {cs : List Token} (h : ∀ c ∈ cs, extra c) : ∀ c ∈ cs, IsComment c :=
  fun c hc => hextra c (h c hc)

variable {args : List Token}

/-- The groups of a list are those of its items, and perhaps one that opens with what `extra`
names. -/
theorem Separated.groups {α : Type} {P : α → List Token → Prop} (hP : ∀ a ts, P a ts → Item ts)
    {as : List α} (h : Separated extra P as args) :
    ∃ gs left, commaSeparatedGroups args = gs ++ left ∧
      List.Forall₂ (fun a g => ∃ ts, P a ts ∧ ts.filter Token.isNamed = g) as gs ∧
      ∀ g ∈ left, ∃ c rest, extra c ∧ g = c :: rest := by
  induction h with
  | @nil cs hcs =>
    cases cs with
    | nil => exact ⟨[], [], rfl, .nil, by simp⟩
    | cons c cs =>
      have hcomments := comments_of_extra hextra hcs
      have hgroup : Item (c :: cs) := by
        refine ⟨kind_of_comments hcomments, ?_⟩
        rw [named_of_comments hcomments]
        exact List.cons_ne_nil _ _
      refine ⟨[], [c :: cs], ?_, .nil, ?_⟩
      · rw [hgroup.groups, named_of_comments hcomments, List.nil_append]
      · intro g hg
        exact ⟨c, cs, hcs c List.mem_cons_self, List.mem_singleton.1 hg⟩
  | @last a ts ha =>
    exact ⟨[ts.filter Token.isNamed], [], (hP a ts ha).groups, .cons ⟨ts, ha, rfl⟩ .nil, by simp⟩
  | @cons a ts as rest ha _ ih =>
    obtain ⟨gs, left, hgroups, hitems, hleft⟩ := ih
    refine ⟨ts.filter Token.isNamed :: gs, left, ?_, .cons ⟨ts, ha, rfl⟩ hitems, hleft⟩
    rw [(hP a ts ha).groups_comma, hgroups, List.cons_append]

theorem Parses.item {p : Pred} {ts : List Token} (h : Parses extra p ts) : Item ts := by
  cases h with
  | bare hbefore hafter =>
    refine ⟨?_, by simp [ident, Token.isNamed]⟩
    simp only [List.forall_mem_append, List.forall_mem_cons]
    exact ⟨kind_of_comments (comments_of_extra hextra hbefore), (by decide : "identifier" ≠ ","),
      kind_of_comments hafter⟩
  | @keyed _ _ kind _ _ _ _ hkind hbefore hbetween hbetween' hafter =>
    have hliteral : kind ≠ "," := by
      rcases hkind with rfl | rfl
      · exact (by decide : "string_literal" ≠ ",")
      · exact (by decide : "raw_string_literal" ≠ ",")
    refine ⟨?_, by simp [ident, Token.isNamed]⟩
    simp only [List.forall_mem_append, List.forall_mem_cons]
    exact ⟨kind_of_comments (comments_of_extra hextra hbefore), (by decide : "identifier" ≠ ","),
      kind_of_comments hbetween, (by decide : "=" ≠ ","), kind_of_comments hbetween',
      hliteral, kind_of_comments hafter⟩
  | not hbefore hbetween hafter _ => exact (item_combinator (comments_of_extra hextra hbefore)
    (comments_of_extra hextra hbetween) hafter).1
  | all hbefore hbetween hafter _ => exact (item_combinator (comments_of_extra hextra hbefore)
    (comments_of_extra hextra hbetween) hafter).1
  | any hbefore hbetween hafter _ => exact (item_combinator (comments_of_extra hextra hbefore)
    (comments_of_extra hextra hbetween) hafter).1

/-- A group that opens with a comment has neither fact. -/
theorem facts_of_extra {c : Token} (hc : extra c) (rest : List Token) :
    predicateGroupFacts (c :: rest) = (false, false) := by
  obtain ⟨kind, tail, rfl, -⟩ := hextra c hc
  have hopen : ∀ s : String, s.toList.head? ≠ some '/' →
      (Token.leaf kind ("/" ++ tail) true).text ≠ s := by
    rintro s hs rfl
    exact hs (by simp [Token.text])
  have hident : identFacts (.leaf kind ("/" ++ tail) true) = (false, false) := by
    rw [identFacts, beq_false_of_ne (hopen "test" (by simp))]
  match rest with
  | [] =>
    rw [predicateGroupFacts]
    exact hident
  | .leaf k t n :: rest =>
    rw [predicateGroupFacts]
    exact hident
  | .group text args :: rest =>
    rw [predicateGroupFacts_group]
    dsimp only
    rw [if_neg (hopen "not" (by simp)), if_neg (hopen "all" (by simp)),
      if_neg (hopen "any" (by simp))]
    exact hident

/-- A combinator between comments has neither fact, or those of the combinator alone. -/
theorem facts_combinator {name text : String} {before between after : List Token}
    (hname : name ≠ "test") (hbefore : ∀ c ∈ before, extra c) (hbetween : ∀ c ∈ between, extra c) :
    (∃ c, extra c) ∧
        predicateGroupFacts
        (before ++ ident name :: (between ++ .group text (parens args) :: after)) =
          (false, false) ∨
      predicateGroupFacts
        (before ++ ident name :: (between ++ .group text (parens args) :: after)) =
        predicateGroupFacts (ident name :: .group text (parens args) :: after) := by
  cases before with
  | cons c before =>
    have hc := hbefore c List.mem_cons_self
    exact .inl ⟨⟨c, hc⟩, facts_of_extra hextra hc _⟩
  | nil =>
    cases between with
    | nil => exact .inr rfl
    | cons c between =>
      have hc := hbetween c List.mem_cons_self
      refine .inl ⟨⟨c, hc⟩, ?_⟩
      obtain ⟨kind, tail, rfl, -⟩ := hextra c hc
      rw [List.nil_append, List.cons_append, predicateGroupFacts]
      have hne : (name == "test") = false := beq_false_of_ne hname
      show ((name == "test"), (name == "test")) = _
      rw [hne]

end

/-! ## What the facts say -/

/-- A configuration without `test`. -/
def TestUnset (cfg : Cfg) : Prop := ∀ value, cfg "test" value = false

/-- What names `test` fails without it; of what is pure besides, what does not holds without it. -/
structure Sound (p : Pred) (facts : Bool × Bool) : Prop where
  names : facts.1 = true → ∀ cfg, TestUnset cfg → p.holds cfg = false
  pure : facts.2 = true → facts.1 = false → ∀ cfg, TestUnset cfg → p.holds cfg = true

theorem Sound.none (p : Pred) : Sound p (false, false) where
  names := nofun
  pure := nofun

theorem exists_left_of_forall₂ {α β : Type} {R : α → β → Prop} {as : List α} {bs : List β}
    (h : List.Forall₂ R as bs) : ∀ b ∈ bs, ∃ a ∈ as, R a b := by
  induction h with
  | nil => simp
  | cons hab _ ih =>
    simp only [List.forall_mem_cons, List.exists_mem_cons_iff]
    exact ⟨.inl hab, fun b hb => .inr (ih b hb)⟩

theorem exists_right_of_forall₂ {α β : Type} {R : α → β → Prop} {as : List α} {bs : List β}
    (h : List.Forall₂ R as bs) : ∀ a ∈ as, ∃ b ∈ bs, R a b :=
  exists_left_of_forall₂ h.flip

section
variable {p : Pred} {ps : List Pred} {facts left : List (Bool × Bool)}

theorem Sound.not {f : Bool × Bool} (h : Sound p f) : Sound (.not p) (f.2 && !f.1, f.2) where
  names hnames cfg hcfg := by
    rw [Bool.and_eq_true, Bool.not_eq_true'] at hnames
    rw [Pred.holds, h.pure hnames.1 hnames.2 cfg hcfg, Bool.not_true]
  pure hpure hnames cfg hcfg := by
    have hinner : f.1 = true := by
      change f.2 = true at hpure
      simpa [hpure] using hnames
    rw [Pred.holds, h.names hinner cfg hcfg, Bool.not_false]

variable (h : List.Forall₂ Sound ps facts) (hleft : ∀ f ∈ left, f = (false, false))
include h hleft

theorem Sound.all : Sound (.all ps)
    ((facts ++ left).any Prod.fst, (facts ++ left).all Prod.snd) where
  names hnames cfg hcfg := by
    obtain ⟨f, hf, hname⟩ := List.any_eq_true.1 hnames
    rcases List.mem_append.1 hf with hf | hf
    · obtain ⟨p, hp, hsound⟩ := exists_left_of_forall₂ h f hf
      exact Pred.holds_all.2 ⟨p, hp, hsound.names hname cfg hcfg⟩
    · rw [hleft f hf] at hname
      cases hname
  pure hpure hnames cfg hcfg := by
    rw [← Bool.not_eq_false, Pred.holds_all]
    rintro ⟨p, hp, hfalse⟩
    obtain ⟨f, hf, hsound⟩ := exists_right_of_forall₂ h p hp
    have hmem := List.mem_append_left left hf
    have hnot : f.1 = false := by
      simpa using List.any_eq_false.1 hnames f hmem
    rw [hsound.pure (List.all_eq_true.1 hpure f hmem) hnot cfg hcfg] at hfalse
    cases hfalse

theorem Sound.any : Sound (.any ps)
    ((facts ++ left).all Prod.fst, (facts ++ left).all Prod.snd) where
  names hnames cfg hcfg := by
    refine Pred.holds_any.2 fun p hp => ?_
    obtain ⟨f, hf, hsound⟩ := exists_right_of_forall₂ h p hp
    exact hsound.names (List.all_eq_true.1 hnames f (List.mem_append_left left hf)) cfg hcfg
  pure hpure hnames cfg hcfg := by
    rw [← Bool.not_eq_false, Pred.holds_any]
    intro hfalse
    obtain ⟨f, hf, hnot⟩ := List.all_eq_false.1 hnames
    rcases List.mem_append.1 hf with hmem | hmem
    · obtain ⟨p, hp, hsound⟩ := exists_left_of_forall₂ h f hmem
      have hholds := hsound.pure (List.all_eq_true.1 hpure f hf) (by simpa using hnot) cfg hcfg
      rw [hfalse p hp] at hholds
      cases hholds
    · have himpure := List.all_eq_true.1 hpure f hf
      rw [hleft f hmem] at himpure
      cases himpure

end

section
variable {extra : Token → Prop} (hextra : ∀ c, extra c → IsComment c)
include hextra

/-- The facts of the groups of a list of arguments, each sound for its own. -/
theorem facts_separated {ps : List Pred} {args : List Token} {R : Pred → Bool × Bool → Prop}
    (h : Separated extra (Parses extra) ps args)
    (hR : ∀ p ∈ ps, ∀ ts, Parses extra p ts → R p (predicateGroupFacts (ts.filter Token.isNamed))) :
    ∃ facts left, (commaSeparatedGroups (parens args)).map predicateGroupFacts = facts ++ left ∧
      List.Forall₂ R ps facts ∧ (∀ f ∈ left, f = (false, false)) ∧
      ((∀ c, ¬extra c) → left = []) := by
  obtain ⟨gs, left, hgroups, hitems, hleft⟩ := h.groups hextra fun _ _ hp => hp.item hextra
  refine ⟨gs.map predicateGroupFacts, left.map predicateGroupFacts, ?_, ?_, ?_, ?_⟩
  · rw [groups_parens, hgroups, List.map_append]
  · rw [List.forall₂_map_right_iff]
    have hmem := (List.forall₂_and_left ps gs).2 ⟨fun p hp => hp, hitems⟩
    refine hmem.imp fun p g => ?_
    rintro ⟨hp, ts, hts, rfl⟩
    exact hR p hp ts hts
  · intro f hf
    obtain ⟨g, hg, rfl⟩ := List.mem_map.1 hf
    obtain ⟨c, rest, hc, rfl⟩ := hleft g hg
    exact facts_of_extra hextra hc rest
  · intro hnone
    refine List.map_eq_nil_iff.2 (List.eq_nil_iff_forall_not_mem.2 fun g hg => ?_)
    obtain ⟨c, -, hc, -⟩ := hleft g hg
    exact hnone c hc

variable {key : String}

theorem facts_atom {before rest : List Token} (hbefore : ∀ c ∈ before, extra c)
    (hrest : ∀ c ∈ rest, ∃ kind text named, c = .leaf kind text named) :
    (∃ c, extra c) ∧ predicateGroupFacts (before ++ ident key :: rest) = (false, false) ∨
      predicateGroupFacts (before ++ ident key :: rest) = (key == "test", key == "test") := by
  cases before with
  | cons c before =>
    have hc := hbefore c List.mem_cons_self
    exact .inl ⟨⟨c, hc⟩, facts_of_extra hextra hc _⟩
  | nil =>
    refine .inr ?_
    rw [List.nil_append]
    match rest with
    | [] =>
      rw [predicateGroupFacts]
      rfl
    | c :: rest =>
      obtain ⟨kind, text, named, rfl⟩ := hrest c List.mem_cons_self
      rw [predicateGroupFacts]
      rfl

/-- The facts of an atom's parse: none behind a comment, and else whether its key is `test`. -/
theorem Parses.facts_atom {value : Option String} {ts : List Token}
    (h : Parses extra (.atom key value) ts) :
    (∃ c, extra c) ∧ predicateGroupFacts (ts.filter Token.isNamed) = (false, false) ∨
      predicateGroupFacts (ts.filter Token.isNamed) = (key == "test", key == "test") := by
  have hleaf : ∀ cs : List Token, (∀ c ∈ cs, IsComment c) →
      ∀ c ∈ cs, ∃ kind text named, c = .leaf kind text named := by
    intro cs hcs c hc
    obtain ⟨kind, tail, rfl, -⟩ := hcs c hc
    exact ⟨kind, _, true, rfl⟩
  cases h with
  | bare hbefore hafter =>
    rw [List.filter_append, named_of_comments (comments_of_extra hextra hbefore),
      List.filter_cons_of_pos rfl,
      named_of_comments hafter]
    exact Grounder.facts_atom hextra hbefore (hleaf _ hafter)
  | keyed _ hbefore hbetween hbetween' hafter =>
    rw [List.filter_append, named_of_comments (comments_of_extra hextra hbefore),
      List.filter_cons_of_pos rfl,
      List.filter_append, named_of_comments hbetween, List.filter_cons_of_neg Bool.false_ne_true,
      List.filter_append, named_of_comments hbetween', List.filter_cons_of_pos rfl,
      named_of_comments hafter]
    refine Grounder.facts_atom hextra hbefore ?_
    simp only [List.forall_mem_append, List.forall_mem_cons]
    exact ⟨hleaf _ hbetween, hleaf _ hbetween', ⟨_, _, _, rfl⟩, hleaf _ hafter⟩

theorem Parses.sound {p : Pred} {ts : List Token} (h : Parses extra p ts) :
    Sound p (predicateGroupFacts (ts.filter Token.isNamed)) := by
  induction p using Pred.induction generalizing ts with
  | atom key value =>
    rcases h.facts_atom hextra with ⟨-, hnone⟩ | hfacts
    · rw [hnone]
      exact .none _
    · rw [hfacts]
      refine ⟨fun htest cfg hcfg => ?_, fun htest hnot =>
        absurd (htest.symm.trans hnot) (by decide)⟩
      rw [beq_iff_eq] at htest
      rw [Pred.holds, htest, hcfg]
  | not p ih =>
    cases h with
    | not hbefore hbetween hafter hargs =>
      rw [(item_combinator (comments_of_extra hextra hbefore)
        (comments_of_extra hextra hbetween) hafter).2]
      rcases facts_combinator hextra (show "not" ≠ "test" by decide) hbefore hbetween
        with ⟨-, hnone⟩ | halone
      · rw [hnone]
        exact .none _
      · have hinner : ∀ q ∈ [p], ∀ ts, Parses extra q ts →
            Sound q (predicateGroupFacts (ts.filter Token.isNamed)) := by
          intro q hq ts hts
          obtain rfl := List.mem_singleton.1 hq
          exact ih hts
        obtain ⟨facts, left, hfacts, hsound, -⟩ := facts_separated hextra hargs hinner
        obtain ⟨f, rest, hf, -, rfl⟩ := List.forall₂_cons_left_iff.1 hsound
        rw [halone, facts_not hfacts]
        exact hf.not
  | all ps ih =>
    cases h with
    | all hbefore hbetween hafter hargs =>
      rw [(item_combinator (comments_of_extra hextra hbefore)
        (comments_of_extra hextra hbetween) hafter).2]
      rcases facts_combinator hextra (show "all" ≠ "test" by decide) hbefore hbetween
        with ⟨-, hnone⟩ | halone
      · rw [hnone]
        exact .none _
      · obtain ⟨facts, left, hfacts, hsound, hleft, -⟩ := facts_separated hextra hargs
          fun q hq ts hts => ih q hq hts
        rw [halone, facts_all hfacts]
        exact Sound.all hsound hleft
  | any ps ih =>
    cases h with
    | any hbefore hbetween hafter hargs =>
      rw [(item_combinator (comments_of_extra hextra hbefore)
        (comments_of_extra hextra hbetween) hafter).2]
      rcases facts_combinator hextra (show "any" ≠ "test" by decide) hbefore hbetween
        with ⟨-, hnone⟩ | halone
      · rw [hnone]
        exact .none _
      · obtain ⟨facts, left, hfacts, hsound, hleft, -⟩ := facts_separated hextra hargs
          fun q hq ts hts => ih q hq hts
        rw [halone, facts_any hfacts]
        exact Sound.any hsound hleft

end

/-! ## What is missed -/

/-- Everything is set but `test`. -/
def permissive : Cfg := fun key _ => key != "test"

theorem testUnset_permissive : TestUnset permissive := fun _ => rfl

/-- Of a predicate no comment hides: pure where it is, and what does not name `test` holds with all
else set. -/
structure Complete (p : Pred) (facts : Bool × Bool) : Prop where
  pure : p.Pure → facts.2 = true
  holds : p.PureNots → facts.1 = false → p.holds permissive = true

section
variable {ps : List Pred} {facts : List (Bool × Bool)} (h : List.Forall₂ Complete ps facts)
include h

theorem Complete.all : Complete (.all ps) (facts.any Prod.fst, facts.all Prod.snd) where
  pure hpure := by
    cases hpure with
    | all hpure =>
      refine List.all_eq_true.2 fun f hf => ?_
      obtain ⟨p, hp, hcomplete⟩ := exists_left_of_forall₂ h f hf
      exact hcomplete.pure (hpure p hp)
  holds hnots hnames := by
    cases hnots with
    | all hnots =>
      rw [← Bool.not_eq_false, Pred.holds_all]
      rintro ⟨p, hp, hfalse⟩
      obtain ⟨f, hf, hcomplete⟩ := exists_right_of_forall₂ h p hp
      have hnot : f.1 = false := by simpa using List.any_eq_false.1 hnames f hf
      rw [hcomplete.holds (hnots p hp) hnot] at hfalse
      cases hfalse

theorem Complete.any : Complete (.any ps) (facts.all Prod.fst, facts.all Prod.snd) where
  pure hpure := by
    cases hpure with
    | any hpure =>
      refine List.all_eq_true.2 fun f hf => ?_
      obtain ⟨p, hp, hcomplete⟩ := exists_left_of_forall₂ h f hf
      exact hcomplete.pure (hpure p hp)
  holds hnots hnames := by
    cases hnots with
    | any hnots =>
      rw [← Bool.not_eq_false, Pred.holds_any]
      intro hfalse
      obtain ⟨f, hf, hnot⟩ := List.all_eq_false.1 hnames
      obtain ⟨p, hp, hcomplete⟩ := exists_left_of_forall₂ h f hf
      have hholds := hcomplete.holds (hnots p hp) (by simpa using hnot)
      rw [hfalse p hp] at hholds
      cases hholds

end

/-- Nothing stands before a group's first token, or between a combinator and its arguments. -/
def nothing : Token → Prop := fun _ => False

theorem Parses.complete {p : Pred} (h : Parses nothing p ts) :
    Complete p (predicateGroupFacts (ts.filter Token.isNamed)) := by
  have hextra : ∀ c, nothing c → IsComment c := fun _ hc => hc.elim
  have hnone : ¬∃ c, nothing c := fun ⟨_, hc⟩ => hc
  induction p using Pred.induction generalizing ts with
  | atom key value =>
    rw [(h.facts_atom hextra).resolve_left fun hc => hnone hc.1]
    refine ⟨fun hpure => ?_, fun _ hnot => ?_⟩
    · cases hpure
      rfl
    · change (key == "test") = false at hnot
      rw [Pred.holds, permissive, bne, hnot, Bool.not_false]
  | not p ih =>
    cases h with
    | not hbefore hbetween hafter hargs =>
      rw [(item_combinator (comments_of_extra hextra hbefore)
        (comments_of_extra hextra hbetween) hafter).2,
        (facts_combinator hextra (show "not" ≠ "test" by decide) hbefore hbetween).resolve_left
          fun hc => hnone hc.1]
      have hinner : ∀ q ∈ [p], ∀ ts, Parses nothing q ts →
          Sound q (predicateGroupFacts (ts.filter Token.isNamed)) ∧
            Complete q (predicateGroupFacts (ts.filter Token.isNamed)) := by
        intro q hq ts hts
        obtain rfl := List.mem_singleton.1 hq
        exact ⟨hts.sound hextra, ih hts⟩
      obtain ⟨facts, left, hfacts, hboth, -⟩ := @facts_separated nothing hextra [p] _
        (fun q f => Sound q f ∧ Complete q f) hargs hinner
      obtain ⟨f, rest, ⟨hsound, hcomplete⟩, -, rfl⟩ := List.forall₂_cons_left_iff.1 hboth
      rw [facts_not hfacts]
      refine ⟨fun hpure => ?_, fun hnots hnames => ?_⟩
      · cases hpure with
        | not hpure => exact hcomplete.pure hpure
      · cases hnots with
        | not hpure =>
          have hname : f.1 = true := by
            have hsnd := hcomplete.pure hpure
            change (f.2 && !f.1) = false at hnames
            simpa [hsnd] using hnames
          rw [Pred.holds, hsound.names hname permissive testUnset_permissive, Bool.not_false]
  | all ps ih =>
    cases h with
    | all hbefore hbetween hafter hargs =>
      rw [(item_combinator (comments_of_extra hextra hbefore)
        (comments_of_extra hextra hbetween) hafter).2,
        (facts_combinator hextra (show "all" ≠ "test" by decide) hbefore hbetween).resolve_left
          fun hc => hnone hc.1]
      obtain ⟨facts, left, hfacts, hcomplete, -, hleft⟩ := facts_separated hextra hargs
        fun q hq ts hts => ih q hq hts
      rw [hleft fun c hc => hc, List.append_nil] at hfacts
      rw [facts_all hfacts]
      exact Complete.all hcomplete
  | any ps ih =>
    cases h with
    | any hbefore hbetween hafter hargs =>
      rw [(item_combinator (comments_of_extra hextra hbefore)
        (comments_of_extra hextra hbetween) hafter).2,
        (facts_combinator hextra (show "any" ≠ "test" by decide) hbefore hbetween).resolve_left
          fun hc => hnone hc.1]
      obtain ⟨facts, left, hfacts, hcomplete, -, hleft⟩ := facts_separated hextra hargs
        fun q hq ts hts => ih q hq hts
      rw [hleft fun c hc => hc, List.append_nil] at hfacts
      rw [facts_any hfacts]
      exact Complete.any hcomplete

/-- `#[cfg(..)]` with these arguments. -/
def cfgItem (args : List Token) : Attribute := ⟨"cfg", some (parens args)⟩

/-- A group and a `cfg` attribute of one predicate are told alike, but for a comment before it. -/
theorem attributeItemNamesTest_cfgItem {extra : Token → Prop} (hextra : ∀ c, extra c → IsComment c)
    {p : Pred} {args : List Token} (h : Separated extra (Parses extra) [p] args) :
    ∃ ts, Parses extra p ts ∧ attributeItemNamesTest (cfgItem args) =
      (predicateGroupFacts (ts.filter Token.isNamed)).1 := by
  obtain ⟨gs, left, hgroups, hitems, -⟩ := h.groups hextra fun _ _ hp => hp.item hextra
  obtain ⟨g, rest, ⟨ts, hts, rfl⟩, -, rfl⟩ := List.forall₂_cons_left_iff.1 hitems
  refine ⟨ts, hts, ?_⟩
  have hfacts : tokenTreeFacts (parens args) = predicateGroupFacts (ts.filter Token.isNamed) := by
    rw [tokenTreeFacts, groups_parens, hgroups]
    rfl
  show (tokenTreeFacts (parens args)).1 = _
  rw [hfacts]

/-- A predicate that is said to name `test` fails in every configuration without it, however nested
and commented; and where every `not` covers only `test`, `not`, `all` and `any`, a predicate that
fails in all of them is said to name it, no comment standing at the front of a group or of
arguments.  So it is of the items of a `cfg` attribute. -/
theorem cfg_names_test :
    (∀ p ts, Parses IsComment p ts → (predicateGroupFacts (ts.filter Token.isNamed)).1 = true →
      ∀ cfg, TestUnset cfg → p.holds cfg = false) ∧
    (∀ p ts, Parses nothing p ts → p.PureNots → (∀ cfg, TestUnset cfg → p.holds cfg = false) →
      (predicateGroupFacts (ts.filter Token.isNamed)).1 = true) ∧
    (∀ p args, Separated IsComment (Parses IsComment) [p] args →
      attributeItemNamesTest (cfgItem args) = true → ∀ cfg, TestUnset cfg → p.holds cfg = false) ∧
    ∀ p args, Separated nothing (Parses nothing) [p] args → p.PureNots →
      (∀ cfg, TestUnset cfg → p.holds cfg = false) →
      attributeItemNamesTest (cfgItem args) = true := by
  have hsound : ∀ p ts, Parses IsComment p ts →
      (predicateGroupFacts (ts.filter Token.isNamed)).1 = true →
      ∀ cfg, TestUnset cfg → p.holds cfg = false := fun p ts h => (h.sound fun _ hc => hc).names
  have hcomplete : ∀ p ts, Parses nothing p ts → p.PureNots →
      (∀ cfg, TestUnset cfg → p.holds cfg = false) →
      (predicateGroupFacts (ts.filter Token.isNamed)).1 = true := by
    intro p ts h hnots hfails
    by_contra hnot
    have hholds := h.complete.holds hnots (Bool.not_eq_true _ ▸ hnot)
    rw [hfails permissive testUnset_permissive] at hholds
    cases hholds
  refine ⟨hsound, hcomplete, fun p args h hnames => ?_, fun p args h hnots hfails => ?_⟩
  · obtain ⟨ts, hts, heq⟩ := attributeItemNamesTest_cfgItem (fun _ hc => hc) h
    exact hsound p ts hts (heq ▸ hnames)
  · obtain ⟨ts, hts, heq⟩ := attributeItemNamesTest_cfgItem (fun _ hc => hc.elim) h
    rw [heq]
    exact hcomplete p ts hts hnots hfails

/-- `test = ".."` is read as `test`, but may be set without it. -/
theorem keyed_test_names_test : ¬∀ p ts, Parses nothing p ts →
    (predicateGroupFacts (ts.filter Token.isNamed)).1 = true →
      ∀ cfg : Cfg, cfg "test" none = false → p.holds cfg = false := by
  intro h
  have hnone : ∀ {P : Token → Prop}, ∀ c ∈ ([] : List Token), P c := by simp
  have hparse : Parses nothing (.atom "test" (some "\"fast\"")) _ :=
    .keyed (.inl rfl) hnone hnone hnone hnone
  have hfalse := h _ _ hparse (by
    rw [(hparse.facts_atom fun _ hc => hc.elim).resolve_left fun ⟨⟨_, hc⟩, _⟩ => hc]
    rfl) (fun _ value => value.isSome) rfl
  cases hfalse

end Rigger.Grounder
