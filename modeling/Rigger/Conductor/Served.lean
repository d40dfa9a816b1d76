import Rigger.Conductor.Baseline
import Rigger.Conductor.Harvest
import Rigger.Lib.Ranked
import Rigger.Lib.Words

/-!
# The criterion a proposal serves (`rigger-conductor/src/conductor.rs`, `rigger-domain/src/wave.rs`)

A proposal serves the criterion whose id it echoes, else the longest its text opens with.  A text
opens with a criterion where its words begin with the criterion's (`criterionRemainder_eq_some`), so
the coverage a proposal is given opens with the criterion it served (`words_partCoverage`) and is
its own coverage (`partCoverage_idem`).  `served_stable` says when it is given the same again.
-/

namespace Rigger.Conductor.Proposed

open Lib

/-! ## Words -/

def inWord (c : Char) : Bool := !isWhite c

/-- The words of a text, as characters. -/
def wordsIn (s : String) : List (List Char) := wordsOf inWord s.toList

theorem inWord_space : inWord ' ' = false := by decide

theorem words_eq (s : String) : words s = (wordsIn s).map String.ofList := by
  unfold words wordsIn
  rw [wordsOf_eq_filter]
  simp [inWord]

variable {s criterion : String}

theorem words_inj {t : String} : words s = words t ↔ wordsIn s = wordsIn t := by
  rw [words_eq, words_eq]
  exact (List.map_injective_iff.2 fun a b h => String.ofList_injective h).eq_iff

theorem mem_wordsIn : ∀ w ∈ wordsIn s, w ≠ [] ∧ ∀ c ∈ w, inWord c = true :=
  fun _ hw => mem_wordsOf hw

theorem toList_normalizeWs (s : String) :
    (normalizeWs s).toList = [' '].intercalate (wordsIn s) := by
  unfold normalizeWs
  rw [String.toList_intercalate, words_eq, List.map_map]
  have hid : String.toList ∘ String.ofList = id := by
    funext l
    simp
  rw [hid, List.map_id]
  rfl

theorem normalizeWs_inj {t : String} : normalizeWs s = normalizeWs t ↔ words s = words t := by
  constructor
  · intro h
    rw [words_inj]
    refine intercalate_inj inWord_space mem_wordsIn mem_wordsIn ?_
    rw [← toList_normalizeWs, ← toList_normalizeWs, h]
  · intro h
    rw [normalizeWs, normalizeWs, h]

theorem normalizeWs_isEmpty (s : String) : (normalizeWs s).isEmpty = true ↔ words s = [] := by
  have hempty : normalizeWs "" = "" := by decide
  have hwords : words "" = [] := by decide
  rw [String.isEmpty_iff, ← hwords, ← normalizeWs_inj, hempty]

theorem words_append_break (a b : String) : words (a ++ "\n\n" ++ b) = words a ++ words b := by
  have hbreak : inWord '\n' = false := by decide
  rw [words_eq, words_eq, words_eq, ← List.map_append]
  congr 1
  unfold wordsIn
  have hlist : (a ++ "\n\n" ++ b).toList = a.toList ++ '\n' :: ([] ++ '\n' :: b.toList) := by simp
  rw [hlist, wordsOf_append_cons _ _ hbreak, wordsOf_append_cons _ _ hbreak]
  rfl

variable {us : List String} {rest : String}

theorem words_intercalate (h : ∃ ws, words s = ws ++ us) : words (" ".intercalate us) = us := by
  obtain ⟨ws, h⟩ := h
  have hgood : ∀ w ∈ us.map String.toList, w ≠ [] ∧ ∀ c ∈ w, inWord c = true := by
    intro w hw
    obtain ⟨u, hu, rfl⟩ := List.mem_map.1 hw
    have hmem : u ∈ words s := h ▸ List.mem_append_right ws hu
    rw [words_eq] at hmem
    obtain ⟨v, hv, rfl⟩ := List.mem_map.1 hmem
    rw [String.toList_ofList]
    exact mem_wordsIn v hv
  rw [words_eq, wordsIn, String.toList_intercalate]
  rw [show (" " : String).toList = [' '] from rfl, wordsOf_intercalate inWord_space hgood,
    List.map_map]
  have hid : String.ofList ∘ String.toList = id := by
    funext u
    simp
  rw [hid, List.map_id]

/-! ## Openings -/

theorem words_of_space {text : String} (hne : words criterion ≠ [])
    (h : normalizeWs text = normalizeWs criterion ++ (" " ++ rest)) :
    ∃ us, words text = words criterion ++ us ∧ rest = " ".intercalate us := by
  have hlist := congrArg String.toList h
  rw [String.toList_append, String.toList_append, toList_normalizeWs, toList_normalizeWs] at hlist
  have hcriterion : wordsIn criterion ≠ [] := by
    intro hnone
    rw [words_eq, hnone] at hne
    exact hne rfl
  obtain ⟨us, -, hwords, hrest⟩ := (intercalate_eq_append_cons_iff inWord_space mem_wordsIn
    mem_wordsIn hcriterion).1 hlist
  refine ⟨us.map String.ofList, ?_, ?_⟩
  · rw [words_eq, hwords, List.map_append, words_eq]
  · have hrest : rest.toList = [' '].intercalate us := hrest
    rw [← String.toList_inj, hrest, String.toList_intercalate, List.map_map]
    have hid : String.toList ∘ String.ofList = id := by
      funext l
      simp
    rw [hid, List.map_id]
    rfl

/-- A text opens with a criterion where its words do, and carries the rest of them past it. -/
theorem criterionRemainder_eq_some {text : String} :
    criterionRemainder criterion text = some rest ↔ words criterion ≠ [] ∧
      ∃ us, words text = words criterion ++ us ∧ rest = " ".intercalate us := by
  unfold criterionRemainder
  by_cases hempty : words criterion = []
  · simp [(normalizeWs_isEmpty criterion).2 hempty, hempty]
  · have hnot : (normalizeWs criterion).isEmpty = false :=
      eq_false_of_ne_true fun h => hempty ((normalizeWs_isEmpty criterion).1 h)
    simp only [hnot, Bool.false_eq_true, if_false]
    constructor
    · intro h
      refine ⟨hempty, ?_⟩
      cases hcut : stripPrefix (normalizeWs criterion) (normalizeWs text) with
      | none =>
        rw [hcut] at h
        cases h
      | some r =>
        have htext := stripPrefix_eq_some hcut
        rw [hcut] at h
        dsimp only at h
        by_cases hr : r.isEmpty = true
        · rw [if_pos hr] at h
          rw [String.isEmpty_iff.1 hr, String.append_empty] at htext
          refine ⟨[], ?_, ?_⟩
          · rw [List.append_nil]
            exact normalizeWs_inj.1 htext
          · rw [String.intercalate_nil]
            exact (Option.some.inj h).symm
        · rw [if_neg hr] at h
          rw [stripPrefix_eq_some h] at htext
          exact words_of_space hempty htext
    · rintro ⟨-, us, hwords, rfl⟩
      by_cases hmore : us = []
      · have htext : normalizeWs text = normalizeWs criterion ++ "" := by
          rw [String.append_empty, normalizeWs_inj, hwords, hmore, List.append_nil]
        rw [htext, stripPrefix_append, hmore, String.intercalate_nil]
        rfl
      · have htext : normalizeWs text = normalizeWs criterion ++ (" " ++ " ".intercalate us) := by
          rw [normalizeWs, hwords, String.intercalate_append_of_ne_nil hempty hmore,
            String.append_assoc]
          rfl
        have hnonempty : (" " ++ " ".intercalate us).isEmpty = false := by simp
        rw [htext, stripPrefix_append]
        dsimp only
        rw [hnonempty, if_neg Bool.false_ne_true, stripPrefix_append]

theorem criterionRemainder_isSome {text : String} :
    (criterionRemainder criterion text).isSome = true ↔
      words criterion ≠ [] ∧ words criterion <+: words text := by
  rw [Option.isSome_iff_exists]
  constructor
  · rintro ⟨rest, h⟩
    obtain ⟨hne, us, hwords, -⟩ := criterionRemainder_eq_some.1 h
    exact ⟨hne, us, hwords.symm⟩
  · rintro ⟨hne, us, hwords⟩
    exact ⟨_, criterionRemainder_eq_some.2 ⟨hne, us, hwords.symm, rfl⟩⟩

/-- The coverage opens with the criterion and keeps every word the proposal carries past it. -/
theorem words_partCoverage {proposed : String} (hne : words criterion ≠ [])
    (h : words proposed = words criterion ++ us) :
    words (partCoverage criterion proposed) = words criterion ++ us := by
  have hremainder := criterionRemainder_eq_some.2 ⟨hne, us, h, rfl⟩
  have hus := words_intercalate ⟨words criterion, h⟩
  unfold partCoverage
  rw [hremainder]
  dsimp only
  by_cases hempty : (" ".intercalate us).isEmpty = true
  · have hnone : words "" = [] := by decide
    rw [if_pos hempty]
    rw [String.isEmpty_iff.1 hempty, hnone] at hus
    rw [← hus, List.append_nil]
  · rw [if_neg hempty, words_append_break, hus]

/-- Whatever was proposed, the coverage opens with the exact criterion. -/
theorem partCoverage_opens (criterion proposed : String) :
    ∃ rest, partCoverage criterion proposed = criterion ++ rest := by
  unfold partCoverage
  split
  · split
    · exact ⟨"", by simp⟩
    · exact ⟨_, String.append_assoc⟩
  · exact ⟨"", by simp⟩

theorem isSome_partCoverage (hne : words criterion ≠ []) (proposed : String) :
    (criterionRemainder criterion (partCoverage criterion proposed)).isSome = true := by
  rw [criterionRemainder_isSome]
  refine ⟨hne, ?_⟩
  cases hremainder : criterionRemainder criterion proposed with
  | none =>
    rw [partCoverage, hremainder]
  | some rest =>
    obtain ⟨-, us, hwords, -⟩ := criterionRemainder_eq_some.1 hremainder
    rw [words_partCoverage hne hwords]
    exact List.prefix_append _ us

theorem partCoverage_idem (hne : words criterion ≠ []) (proposed : String) :
    partCoverage criterion (partCoverage criterion proposed) = partCoverage criterion proposed := by
  have hverbatim : partCoverage criterion criterion = criterion := by
    have hself : criterionRemainder criterion criterion = some "" :=
      criterionRemainder_eq_some.2 ⟨hne, [], by simp, by simp⟩
    rw [partCoverage, hself]
    rfl
  cases hremainder : criterionRemainder criterion proposed with
  | none =>
    have hcoverage : partCoverage criterion proposed = criterion := by
      rw [partCoverage, hremainder]
    rw [hcoverage, hverbatim]
  | some rest =>
    obtain ⟨-, us, hwords, hrest⟩ := criterionRemainder_eq_some.1 hremainder
    have hagain : criterionRemainder criterion (partCoverage criterion proposed) = some rest :=
      criterionRemainder_eq_some.2 ⟨hne, us, words_partCoverage hne hwords, hrest⟩
    rw [partCoverage, hagain]
    unfold partCoverage
    rw [hremainder]

/-! ## Ids -/

theorem trim_of_none (h : ∀ c ∈ s.toList, isWhite c = false) : trim s = s := by
  have hsame : (trim s).toList = s.toList := by
    rw [trim, String.toList_ofList]
    exact trimMatches_of_none h
  exact String.toList_inj.1 hsame

theorem trim_isEmpty (s : String) : (trim s).isEmpty = true ↔ words s = [] := by
  have htrim : (trim s).toList = trimMatches isWhite s.toList := by
    rw [trim, String.toList_ofList]
    rfl
  have hinWord : ∀ c, inWord c = false ↔ isWhite c = true := by
    intro c
    rw [inWord, Bool.not_eq_false']
  rw [String.isEmpty_iff, ← String.toList_inj, htrim, words_eq, List.map_eq_nil_iff, wordsIn,
    wordsOf_eq_nil]
  obtain ⟨pre, post, heq, hpre, hpost⟩ := trimMatches_eq isWhite s.toList
  constructor
  · intro hnone c hc
    rw [hnone, String.toList_empty, List.append_nil] at heq
    rw [hinWord]
    rw [heq] at hc
    exact (List.mem_append.1 hc).elim (hpre c) (hpost c)
  · intro hall
    cases hleft : trimMatches isWhite s.toList with
    | nil => rfl
    | cons c l =>
      have hnot := head?_trimMatches (p := isWhite) (l := s.toList) (c := c) (by rw [hleft]; rfl)
      have hmem : c ∈ s.toList := by
        rw [heq, hleft]
        simp
      rw [(hinWord c).1 (hall c hmem)] at hnot
      cases hnot

theorem digit_plain {c : Char} (h : c.isDigit = true) :
    isWhite c = false ∧ (c == '[' || c == ']') = false := by
  have hrange : 48 ≤ c.toNat ∧ c.toNat ≤ 57 := by
    unfold Char.isDigit at h
    rw [Bool.and_eq_true, decide_eq_true_eq, decide_eq_true_eq] at h
    exact h
  constructor
  · simp only [isWhite, Bool.or_eq_false_iff, Bool.and_eq_false_iff, decide_eq_false_iff_not,
      beq_eq_false_iff_ne]
    omega
  · rw [Bool.or_eq_false_iff, beq_eq_false_iff_ne, beq_eq_false_iff_ne]
    constructor <;> rintro rfl <;> exact absurd hrange (by decide)

theorem normalizeCriterionId_stable (position : Nat) (criterion : String) :
    normalizeCriterionId (criterionStableId position criterion) =
      criterionStableId position criterion := by
  have hchars : ∀ c ∈ (criterionStableId position criterion).toList,
      isWhite c = false ∧ (c == '[' || c == ']') = false := by
    intro c hc
    unfold criterionStableId at hc
    simp only [String.toList_append, List.mem_append] at hc
    rcases hc with ((hc | hc) | hc) | hc
    · obtain rfl : c = 'c' := by simpa using hc
      decide
    · exact digit_plain (List.all_eq_true.1 (all_isDigit_toString position) c hc)
    · obtain rfl : c = '-' := by simpa using hc
      decide
    · have hhex : ∀ d < 16, isWhite d.digitChar = false ∧
          (d.digitChar == '[' || d.digitChar == ']') = false := by decide
      obtain ⟨d, hd, rfl⟩ := mem_hex16 hc
      exact hhex d hd
  unfold normalizeCriterionId
  rw [trim_of_none fun c hc => (hchars c hc).1, trimMatches_of_none fun c hc => (hchars c hc).2,
    String.ofList_toList, trim_of_none fun c hc => (hchars c hc).1]

/-! ## The criterion served -/

section
variable {criteria : List String} {coverage criterionId : String} {i : Nat} {c : String}

theorem getElem?_of_served (h : servedCriterion criteria coverage criterionId = some (c, i)) :
    criteria[i]? = some c := by
  unfold servedCriterion at h
  rcases Option.or_eq_some_iff.1 h with h | ⟨-, h⟩
  · exact List.mem_zipIdx_iff_getElem?.1 (List.mem_of_find?_eq_some h)
  · exact List.mem_zipIdx_iff_getElem?.1 (List.mem_of_mem_filter (List.argmax_mem h))

theorem served_echoed (hi : criteria[i]? = some c)
    (hid : normalizeCriterionId criterionId = criterionStableId (i + 1) c) :
    servedCriterion criteria coverage criterionId = some (c, i) := by
  have hmem : (c, i) ∈ criteria.zipIdx := List.mem_zipIdx_iff_getElem?.2 hi
  have hne : (criterionStableId (i + 1) c).isEmpty = false := by
    simp [criterionStableId]
  unfold servedCriterion
  dsimp only
  rw [hid, hne]
  cases hfind : criteria.zipIdx.find? fun x => !false &&
      criterionStableId (i + 1) c == criterionStableId (x.2 + 1) x.1 with
  | none =>
    have hnot := List.find?_eq_none.1 hfind (c, i) hmem
    simp at hnot
  | some x =>
    have hx := List.find?_some hfind
    have hat := List.mem_zipIdx_iff_getElem?.1 (List.mem_of_find?_eq_some hfind)
    rw [Bool.not_false, Bool.true_and, beq_iff_eq] at hx
    have hplace : x.2 = i := by
      have := criterionStableId_inj hx
      omega
    rw [hplace, hi] at hat
    have hsame : x = (c, i) := Prod.ext (Option.some.inj hat).symm hplace
    rw [hsame]
    rfl

theorem served_unnamed (h : ∀ j c', criteria[j]? = some c' →
      normalizeCriterionId criterionId ≠ criterionStableId (j + 1) c') :
    servedCriterion criteria coverage criterionId =
      (criteria.zipIdx.filter fun c => (criterionRemainder c.1 coverage).isSome).argmax fun c =>
        (normalizeWs c.1).utf8ByteSize := by
  unfold servedCriterion
  dsimp only
  have hfind : (criteria.zipIdx.find? fun x => !(normalizeCriterionId criterionId).isEmpty &&
      normalizeCriterionId criterionId == criterionStableId (x.2 + 1) x.1) = none := by
    refine List.find?_eq_none.2 fun x hx htrue => ?_
    rw [Bool.and_eq_true, beq_iff_eq] at htrue
    exact h x.2 x.1 (List.mem_zipIdx_iff_getElem?.1 hx) htrue.2
  rw [hfind, Option.none_or]

/-- No criterion the text opens with is longer, and none before this one is as long. -/
def Longest (criteria : List String) (text : String) (i : Nat) (c : String) : Prop :=
  ∀ j c', criteria[j]? = some c' → (criterionRemainder c' text).isSome = true →
    (normalizeWs c').utf8ByteSize ≤ (normalizeWs c).utf8ByteSize ∧
      (normalizeWs c' = normalizeWs c → i ≤ j)

/-- Of two criteria one of which begins with the other the shorter one has fewer bytes. -/
theorem size_of_leading {a b : String} (hne : words a ≠ []) (h : words a <+: words b) :
    (normalizeWs a).utf8ByteSize ≤ (normalizeWs b).utf8ByteSize ∧
      ((normalizeWs b).utf8ByteSize ≤ (normalizeWs a).utf8ByteSize → words a = words b) := by
  obtain ⟨us, hus⟩ := h
  by_cases hmore : us = []
  · rw [hmore, List.append_nil] at hus
    rw [normalizeWs_inj.2 hus]
    exact ⟨Nat.le_refl _, fun _ => hus⟩
  · have hlonger : normalizeWs b = normalizeWs a ++ " " ++ " ".intercalate us := by
      rw [normalizeWs, ← hus, String.intercalate_append_of_ne_nil hne hmore]
      rfl
    have hspace : (" " : String).utf8ByteSize = 1 := by decide
    rw [hlonger, String.utf8ByteSize_append, String.utf8ByteSize_append, hspace]
    exact ⟨by omega, by omega⟩

theorem argmax_eq_of_longest (hi : criteria[i]? = some c)
    (hopens : (criterionRemainder c coverage).isSome = true)
    (hlongest : Longest criteria coverage i c) :
    (criteria.zipIdx.filter fun c => (criterionRemainder c.1 coverage).isSome).argmax
      (fun c => (normalizeWs c.1).utf8ByteSize) = some (c, i) := by
  have hplaces : (criteria.zipIdx.filter fun c => (criterionRemainder c.1 coverage).isSome).Pairwise
      fun a b => a.2 < b.2 := by
    refine List.Pairwise.filter _ (List.pairwise_map.1 ?_)
    rw [List.zipIdx_map_snd]
    exact List.pairwise_lt_range'
  have hmem : ∀ a, a ∈ criteria.zipIdx.filter (fun c => (criterionRemainder c.1 coverage).isSome) ↔
      criteria[a.2]? = some a.1 ∧ (criterionRemainder a.1 coverage).isSome = true := by
    intro a
    rw [List.mem_filter, List.mem_zipIdx_iff_getElem?]
  refine argmax_eq_some_of_first hplaces ((hmem (c, i)).2 ⟨hi, hopens⟩) (fun a ha => ?_)
    fun a ha hle hbefore => ?_
  · obtain ⟨hat, hopen⟩ := (hmem a).1 ha
    exact (hlongest a.2 a.1 hat hopen).1
  · obtain ⟨hat, hopen⟩ := (hmem a).1 ha
    -- both begin the text, so of two as long each begins with the other
    have hsame : normalizeWs a.1 = normalizeWs c := by
      obtain ⟨hne, hpre⟩ := criterionRemainder_isSome.1 hopens
      obtain ⟨hne', hpre'⟩ := criterionRemainder_isSome.1 hopen
      have hsize := (hlongest a.2 a.1 hat hopen).1
      rcases List.prefix_or_prefix_of_prefix hpre' hpre with hnest | hnest
      · exact normalizeWs_inj.2 ((size_of_leading hne' hnest).2 hle)
      · exact (normalizeWs_inj.2 ((size_of_leading hne hnest).2 hsize)).symm
    exact absurd ((hlongest a.2 a.1 hat hopen).2 hsame) (Nat.not_le.2 hbefore)

end

/-! ## Resolving again -/

section
variable {criteria : List String} {coverage criterionId id text : String}

theorem resolve_eq_some {i : Nat} {c : String} (hblank : words text ≠ [])
    (hserved : servedCriterion criteria text criterionId = some (c, i)) :
    resolveServedCriterion criteria text criterionId =
      some (criterionStableId (i + 1) c, partCoverage c text) := by
  have hnot : ¬(trim text).isEmpty = true := fun h => hblank ((trim_isEmpty text).1 h)
  unfold resolveServedCriterion
  rw [if_neg hnot, hserved]
  rfl

/-- What the criterion `c` at `i` gives a proposal: its id, and a coverage that opens with its exact
text and keeps what the proposal carries past it.  A criterion that is not blank is resolved again
from these, and from the coverage alone where it is the longest that the coverage opens with. -/
structure Given (criteria : List String) (coverage id text : String) (i : Nat) (c : String) :
    Prop where
  at_ : criteria[i]? = some c
  named : id = criterionStableId (i + 1) c
  opens : ∃ rest, text = c ++ rest
  keeps : words c ≠ [] → ∀ us, words coverage = words c ++ us → words text = words c ++ us
  again : words c ≠ [] → resolveServedCriterion criteria text id = some (id, text)
  unnamed : words c ≠ [] → Longest criteria text i c → ∀ noId, normalizeCriterionId noId = "" →
    resolveServedCriterion criteria text noId = some (id, text)

theorem given_of_resolve
    (h : resolveServedCriterion criteria coverage criterionId = some (id, text)) :
    ∃ i c, Given criteria coverage id text i c := by
  unfold resolveServedCriterion at h
  split at h
  · cases h
  · obtain ⟨⟨c, i⟩, hserved, heq⟩ := Option.map_eq_some_iff.1 h
    cases heq
    have hi := getElem?_of_served hserved
    have hblank : words c ≠ [] → words (partCoverage c coverage) ≠ [] := by
      intro hne hnone
      have hpre := (criterionRemainder_isSome.1 (isSome_partCoverage hne coverage)).2
      rw [hnone, List.prefix_nil] at hpre
      exact hne hpre
    refine ⟨i, c, hi, rfl, partCoverage_opens c coverage, fun hne us hus =>
      words_partCoverage hne hus,
      fun hne => ?_, fun hne hlongest noId hnoId => ?_⟩
    · have hagain : servedCriterion criteria (partCoverage c coverage)
          (criterionStableId (i + 1) c) = some (c, i) :=
        served_echoed hi (normalizeCriterionId_stable (i + 1) c)
      rw [resolve_eq_some (hblank hne) hagain, partCoverage_idem hne]
    · have hnone : servedCriterion criteria (partCoverage c coverage) noId = some (c, i) := by
        rw [served_unnamed fun j c' _ => by rw [hnoId]; simp [criterionStableId,
          ← String.toList_inj]]
        exact argmax_eq_of_longest hi (isSome_partCoverage hne coverage) hlongest
      rw [resolve_eq_some (hblank hne) hnone, partCoverage_idem hne]

/-- A copy of a criterion that no other equals but for its white space, however it is re-flowed,
resolves to the criterion, unless it names another. -/
theorem resolve_copy {i : Nat} {c : String} (hi : criteria[i]? = some c) (hblank : words c ≠ [])
    (hcopy : normalizeWs coverage = normalizeWs c)
    (honly : ∀ j c', criteria[j]? = some c' → normalizeWs c' = normalizeWs c → j = i)
    (hid : ∀ j c', criteria[j]? = some c' →
      normalizeCriterionId criterionId = criterionStableId (j + 1) c' → j = i) :
    resolveServedCriterion criteria coverage criterionId =
      some (criterionStableId (i + 1) c, c) := by
  have hwords : words coverage = words c ++ [] := by
    rw [List.append_nil]
    exact normalizeWs_inj.1 hcopy
  have hremainder : criterionRemainder c coverage = some "" :=
    criterionRemainder_eq_some.2 ⟨hblank, [], hwords, String.intercalate_nil.symm⟩
  have hcoverage : partCoverage c coverage = c := by
    rw [partCoverage, hremainder]
    rfl
  have hserved : servedCriterion criteria coverage criterionId = some (c, i) := by
    by_cases hnamed : normalizeCriterionId criterionId = criterionStableId (i + 1) c
    · exact served_echoed hi hnamed
    · have hlongest : Longest criteria coverage i c := by
        intro j c' hj hopens
        obtain ⟨hne, hpre⟩ := criterionRemainder_isSome.1 hopens
        rw [hwords, List.append_nil] at hpre
        exact ⟨(size_of_leading hne hpre).1, fun hsame => Nat.le_of_eq (honly j c' hj hsame).symm⟩
      rw [served_unnamed fun j c' hj heq => ?_]
      · exact argmax_eq_of_longest hi (by rw [hremainder]; rfl) hlongest
      · obtain rfl := hid j c' hj heq
        rw [hi] at hj
        cases hj
        exact hnamed heq
  rw [resolve_eq_some (by rw [hwords, List.append_nil]; exact hblank) hserved, hcoverage]

end

/-- What a criteria list gives the proposals over it. -/
theorem served_stable (criteria : List String) :
    (∀ coverage criterionId id text,
      resolveServedCriterion criteria coverage criterionId = some (id, text) →
      ∃ i c, Given criteria coverage id text i c) ∧
    ∀ i c coverage criterionId, criteria[i]? = some c → words c ≠ [] →
      normalizeWs coverage = normalizeWs c →
      (∀ j c', criteria[j]? = some c' → normalizeWs c' = normalizeWs c → j = i) →
      (∀ j c', criteria[j]? = some c' →
        normalizeCriterionId criterionId = criterionStableId (j + 1) c' → j = i) →
      resolveServedCriterion criteria coverage criterionId =
        some (criterionStableId (i + 1) c, c) :=
  ⟨fun _ _ _ _ => given_of_resolve, fun _ _ _ _ => resolve_copy⟩

/-- A blank criterion is not resolved again by its id, and of two criteria of one text the second is
not by its text. -/
theorem blank_and_equal_criteria :
    resolveServedCriterion [""] "the parser" (criterionStableId 1 "") =
        some (criterionStableId 1 "", "") ∧
      resolveServedCriterion [""] "" (criterionStableId 1 "") = none ∧
      resolveServedCriterion ["a", "a"] "a" (criterionStableId 2 "a") =
        some (criterionStableId 2 "a", "a") ∧
      resolveServedCriterion ["a", "a"] "a" "" = some (criterionStableId 1 "a", "a") ∧
      criterionStableId 1 "a" ≠ criterionStableId 2 "a" ∧
      ¬(∀ criteria coverage criterionId id text,
        resolveServedCriterion criteria coverage criterionId = some (id, text) →
        resolveServedCriterion criteria text id = some (id, text)) ∧
      ¬(∀ (criteria : List String) coverage criterionId i c text, criteria[i]? = some c →
        resolveServedCriterion criteria coverage criterionId =
          some (criterionStableId (i + 1) c, text) →
        (∀ c' ∈ criteria, (criterionRemainder c' text).isSome = true →
          (normalizeWs c').utf8ByteSize ≤ (normalizeWs c).utf8ByteSize) →
        resolveServedCriterion criteria text "" = some (criterionStableId (i + 1) c, text)) := by
  have hblank : resolveServedCriterion [""] "the parser" (criterionStableId 1 "") =
      some (criterionStableId 1 "", "") := by decide +kernel
  have hagain : resolveServedCriterion [""] "" (criterionStableId 1 "") = none := by decide +kernel
  have hsecond : resolveServedCriterion ["a", "a"] "a" (criterionStableId 2 "a") =
      some (criterionStableId 2 "a", "a") := by decide +kernel
  have hfirst : resolveServedCriterion ["a", "a"] "a" "" = some (criterionStableId 1 "a", "a") := by
    decide +kernel
  have hne : criterionStableId 1 "a" ≠ criterionStableId 2 "a" := by decide +kernel
  refine ⟨hblank, hagain, hsecond, hfirst, hne, fun h => ?_, fun h => ?_⟩
  · have hsome := h _ _ _ _ _ hblank
    rw [hagain] at hsome
    cases hsome
  · have hsome := h ["a", "a"] "a" (criterionStableId 2 "a") 1 "a" "a" rfl hsecond
      (by decide +kernel)
    rw [hfirst] at hsome
    exact hne (Prod.mk.inj (Option.some.inj hsome)).1

end Rigger.Conductor.Proposed
