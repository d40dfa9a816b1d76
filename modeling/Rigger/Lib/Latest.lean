import Mathlib.Data.List.Induction
import Mathlib.Data.List.Basic

/-!
# The first, the least and the last answer in a list

`f` reads some of the rows of a list.  `first f l` is what the first row it reads answers, `least
f l` the least of its answers and `latest f l` what the last row answers, the value a
last-write-wins fold of `l` keeps (`getElem?_collect`).  Each has its equation for a row added at
the end and its characterisation by the row that answers.  `Since p q l` says that a row of `p`
stands in `l` with no row of `q` after it, what was said since the last reset.
-/

namespace Lib

section
variable {α β : Type} (f : α → Option β)

def latest (l : List α) : Option β := (l.filterMap f).getLast?

@[simp] theorem latest_nil : latest f [] = none := rfl

theorem latest_append_cons {a b : List α} {x : α} (h : f x = none) :
    latest f (a ++ x :: b) = latest f (a ++ b) := by
  unfold latest
  rw [List.filterMap_append, List.filterMap_append, List.filterMap_cons_none h]

theorem latest_append (a b : List α) : latest f (a ++ b) = (latest f b).or (latest f a) := by
  unfold latest
  rw [List.filterMap_append, List.getLast?_append]

theorem latest_concat (a : List α) (x : α) : latest f (a ++ [x]) = (f x).or (latest f a) := by
  rw [latest_append]
  cases h : f x <;> simp [latest, h]

theorem latest_cons (x : α) (l : List α) : latest f (x :: l) = (latest f l).or (f x) := by
  rw [← List.singleton_append, latest_append]
  cases h : f x <;> simp [latest, h]

theorem latest_eq_none_iff (l : List α) : latest f l = none ↔ ∀ x ∈ l, f x = none := by
  rw [latest, List.getLast?_eq_none_iff, List.filterMap_eq_nil_iff]

/-- The row that answers, and nothing after it does. -/
theorem latest_eq_some_iff (l : List α) (b : β) : latest f l = some b ↔
    ∃ init x post, l = init ++ x :: post ∧ f x = some b ∧ ∀ y ∈ post, f y = none := by
  constructor
  · induction l using List.reverseRecOn with
    | nil => intro h; cases h
    | append_singleton init x ih =>
      rw [latest_concat]
      intro h
      cases hx : f x with
      | some c =>
        rw [hx, Option.some_or] at h
        exact ⟨init, x, [], rfl, hx.trans h, by simp⟩
      | none =>
        rw [hx, Option.none_or] at h
        obtain ⟨pre, y, post, rfl, hy, hpost⟩ := ih h
        refine ⟨pre, y, post ++ [x], by simp, hy, fun z hz => ?_⟩
        rcases List.mem_append.1 hz with hz | hz
        · exact hpost z hz
        · rw [List.mem_singleton.1 hz, hx]
  · rintro ⟨init, x, post, rfl, hx, hpost⟩
    rw [latest_append, latest_cons, (latest_eq_none_iff f post).2 hpost, hx]
    rfl

theorem latest_isSome_iff (l : List α) : (latest f l).isSome = true ↔ ∃ x ∈ l,
    (f x).isSome = true := by
  rw [Option.isSome_iff_ne_none, ne_eq, latest_eq_none_iff]
  simp [Option.isSome_iff_ne_none]

variable {l : List α}

variable {f} in
/-- Rows that answer nothing but `b`. -/
theorem latest_eq_of_unique {x : α} {b : β} (hx : x ∈ l) (hb : f x = some b)
    (h : ∀ y ∈ l, ∀ c, f y = some c → c = b) : latest f l = some b := by
  obtain ⟨c, hc⟩ := Option.isSome_iff_exists.1 ((latest_isSome_iff f l).2 ⟨x, hx, by rw [hb]; rfl⟩)
  obtain ⟨before, y, after, rfl, hy, -⟩ := (latest_eq_some_iff f _ c).1 hc
  rw [hc, h y (by simp) c hy]

variable {f} in
theorem latest_congr {g : α → Option β} (h : ∀ x ∈ l, f x = g x) : latest f l = latest g l := by
  rw [latest, latest, List.filterMap_congr h]

theorem latest_map_answer {γ : Type} (g : β → γ) (l : List α) :
    latest (fun x => (f x).map g) l = (latest f l).map g := by
  rw [latest, latest, ← List.map_filterMap, List.getLast?_map]

variable {f} in
theorem latest_bind_answer {γ : Type} {g : β → Option γ} {b : β} {c : γ} (h : latest f l = some b)
    (hg : g b = some c) : latest (fun x => (f x).bind g) l = some c := by
  obtain ⟨before, x, after, hl, hx, hafter⟩ := (latest_eq_some_iff _ _ _).1 h
  refine (latest_eq_some_iff _ _ _).2 ⟨before, x, after, hl, by rw [hx, Option.bind_some, hg], ?_⟩
  intro y hy
  rw [hafter y hy, Option.bind_none]

theorem latest_filter (p : α → Bool) (l : List α) :
    latest f (l.filter p) = latest (fun x => if p x then f x else none) l := by
  rw [latest, latest, List.filterMap_filter]

variable {f} in
/-- Where a test picks exactly the rows `f` reads, the last row it picks answers. -/
theorem latest_eq_getLast?_bind {p : α → Bool} (h : ∀ x ∈ l, p x = true ↔ (f x).isSome = true) :
    latest f l = (l.filter p).getLast?.bind f := by
  induction l using List.reverseRecOn with
  | nil => rfl
  | append_singleton l x ih =>
    rw [latest_concat, ih fun y hy => h y (List.mem_append_left _ hy), List.filter_append]
    have hx := h x (by simp)
    cases hf : f x with
    | none =>
      have hp : p x = false := by
        rw [← Bool.not_eq_true, hx, hf]
        exact Bool.false_ne_true
      simp [hp]
    | some b =>
      have hp : p x = true := hx.2 (by rw [hf]; rfl)
      simp [hp, hf]

theorem latest_map {γ : Type} (g : γ → α) (l : List γ) :
    latest f (l.map g) = latest (fun x => f (g x)) l := by
  rw [latest, latest, List.filterMap_map]
  rfl

theorem latest_filterMap {γ : Type} (g : γ → Option α) (l : List γ) :
    latest f (l.filterMap g) = latest (fun x => (g x).bind f) l := by
  rw [latest, latest, List.filterMap_filterMap]

end

/-! ## Splits -/

/-- A split of a list with a row added splits the list, or at the row. -/
theorem exists_split_concat {α : Type} {P : List α → α → Prop} {l : List α} {x : α} :
    (∃ before y after, l ++ [x] = before ++ y :: after ∧ P before y) ↔
      (∃ before y after, l = before ++ y :: after ∧ P before y) ∨ P l x := by
  constructor
  · rintro ⟨before, y, after, heq, hP⟩
    rcases List.eq_nil_or_concat after with rfl | ⟨after, z, rfl⟩
    · obtain ⟨rfl, hx⟩ := List.append_inj' heq rfl
      rw [List.cons.injEq] at hx
      exact .inr (hx.1 ▸ hP)
    · rw [List.concat_eq_append, ← List.cons_append, ← List.append_assoc] at heq
      obtain ⟨rfl, -⟩ := List.append_inj' heq rfl
      exact .inl ⟨before, y, after, rfl, hP⟩
  · rintro (⟨before, y, after, rfl, hP⟩ | hP)
    · exact ⟨before, y, after ++ [x], by simp, hP⟩
    · exact ⟨l, x, [], rfl, hP⟩

/-- A row of `p` stands in the list, and no row of `q` after it. -/
def Since {α : Type} (p q : α → Prop) (l : List α) : Prop :=
  ∃ before x after, l = before ++ x :: after ∧ p x ∧ ∀ y ∈ after, ¬q y

theorem not_since_nil {α : Type} (p q : α → Prop) : ¬Since p q [] := by
  rintro ⟨before, x, after, heq, -⟩
  simp at heq

theorem since_concat {α : Type} {p q : α → Prop} {l : List α} {x : α} :
    Since p q (l ++ [x]) ↔ p x ∨ Since p q l ∧ ¬q x := by
  constructor
  · rintro ⟨before, y, after, heq, hp, hq⟩
    rcases List.eq_nil_or_concat after with rfl | ⟨after, z, rfl⟩
    · obtain ⟨-, hx⟩ := List.append_inj' heq rfl
      rw [List.cons.injEq] at hx
      exact .inl (hx.1 ▸ hp)
    · rw [List.concat_eq_append] at heq hq
      rw [← List.cons_append, ← List.append_assoc] at heq
      obtain ⟨rfl, hx⟩ := List.append_inj' heq rfl
      rw [List.cons.injEq] at hx
      exact .inr ⟨⟨before, y, after, rfl, hp, fun w hw => hq w (List.mem_append_left _ hw)⟩,
        hx.1 ▸ hq z (by simp)⟩
  · rintro (hp | ⟨⟨before, y, after, rfl, hp, hq⟩, hx⟩)
    · exact ⟨l, x, [], rfl, hp, by simp⟩
    · refine ⟨before, y, after ++ [x], by simp, hp, fun w hw => ?_⟩
      rcases List.mem_append.1 hw with hw | hw
      · exact hq w hw
      · rwa [List.mem_singleton.1 hw]

theorem Since.exists {α : Type} {p q : α → Prop} {l : List α} (h : Since p q l) : ∃ x ∈ l, p x := by
  obtain ⟨before, x, after, rfl, hp, -⟩ := h
  exact ⟨x, by simp, hp⟩

theorem since_congr {α : Type} {p q q' : α → Prop} {l : List α} (hq : ∀ x ∈ l, q x ↔ q' x) :
    Since p q l ↔ Since p q' l := by
  unfold Since
  refine exists₃_congr fun before x after => and_congr_right fun heq => and_congr_right fun _ => ?_
  refine forall₂_congr fun y hy => not_congr (hq y ?_)
  simp [heq, hy]

theorem since_append {α : Type} {p q : α → Prop} {l rows : List α}
    (h : ∀ x ∈ rows, ¬p x ∧ ¬q x) : Since p q (l ++ rows) ↔ Since p q l := by
  induction rows using List.reverseRecOn with
  | nil => rw [List.append_nil]
  | append_singleton rows x ih =>
    rw [← List.append_assoc, since_concat, ih fun y hy => h y (List.mem_append_left _ hy)]
    obtain ⟨hp, hq⟩ := h x (by simp)
    simp [hp, hq]

/-! ## The first and the least answer -/

section
variable {α β : Type} (f : α → Option β)

def first (l : List α) : Option β := (l.filterMap f).head?

theorem first_append (a b : List α) : first f (a ++ b) = (first f a).or (first f b) := by
  unfold first
  rw [List.filterMap_append, List.head?_append]

theorem first_concat (a : List α) (x : α) : first f (a ++ [x]) = (first f a).or (f x) := by
  unfold first
  rw [List.filterMap_append, List.head?_append]
  cases h : f x <;> simp [h]

theorem first_eq_none_iff (l : List α) : first f l = none ↔ ∀ x ∈ l, f x = none := by
  rw [first, List.head?_eq_none_iff, List.filterMap_eq_nil_iff]

/-- The row that answers, and nothing before it does. -/
theorem first_eq_some_iff (l : List α) (b : β) : first f l = some b ↔
    ∃ init x post, l = init ++ x :: post ∧ f x = some b ∧ ∀ y ∈ init, f y = none := by
  constructor
  · induction l with
    | nil => intro h; cases h
    | cons x l ih =>
      intro h
      cases hx : f x with
      | some c =>
        simp only [first, List.filterMap_cons, hx, List.head?_cons] at h
        exact ⟨[], x, l, rfl, hx.trans h, by simp⟩
      | none =>
        simp only [first, List.filterMap_cons, hx] at h
        obtain ⟨init, y, post, rfl, hy, hinit⟩ := ih h
        refine ⟨x :: init, y, post, rfl, hy, fun z hz => ?_⟩
        rcases List.mem_cons.1 hz with rfl | hz
        · exact hx
        · exact hinit z hz
  · rintro ⟨init, x, post, rfl, hx, hinit⟩
    rw [first, List.filterMap_append, List.filterMap_eq_nil_iff.2 hinit, List.nil_append,
      List.filterMap_cons, hx]
    rfl

end

section
variable {α : Type} (f : α → Option Int)

def least (l : List α) : Option Int := (l.filterMap f).min?

theorem least_eq_none_iff (l : List α) : least f l = none ↔ ∀ x ∈ l, f x = none := by
  rw [least, List.min?_eq_none_iff, List.filterMap_eq_nil_iff]

theorem least_eq_some_iff (l : List α) (t : Int) : least f l = some t ↔
    (∃ x ∈ l, f x = some t) ∧ ∀ x ∈ l, ∀ u, f x = some u → t ≤ u := by
  rw [least, List.min?_eq_some_iff, List.mem_filterMap]
  refine and_congr_right fun _ => ⟨fun h x hx u hu => h u (List.mem_filterMap.2 ⟨x, hx, hu⟩),
    fun h u hu => ?_⟩
  obtain ⟨x, hx, hxu⟩ := List.mem_filterMap.1 hu
  exact h x hx u hxu

theorem least_concat (a : List α) (x : α) : least f (a ++ [x]) =
    match f x with
    | some t => some (((least f a).map fun u => min u t).getD t)
    | none => least f a := by
  unfold least
  rw [List.filterMap_append]
  cases h : f x with
  | none => simp [h]
  | some t =>
    rw [List.filterMap_cons, h]
    cases a.filterMap f with
    | nil => rfl
    | cons u l =>
      rw [List.cons_append, List.min?_cons', List.min?_cons', List.foldl_append]
      rfl

end

/-! ## Last write wins -/

section
variable {κ β : Type} [Ord κ] [Std.TransOrd κ] [Std.LawfulEqOrd κ] [DecidableEq κ]

/-- The map a list of writes leaves. -/
def collect (l : List (κ × β)) : Std.ExtTreeMap κ β := l.foldl (fun m p => m.insert p.1 p.2) ∅

theorem getElem?_collect (l : List (κ × β)) (k : κ) :
    (collect l)[k]? = latest (fun p => if p.1 = k then some p.2 else none) l := by
  induction l using List.reverseRecOn with
  | nil => simp [collect]
  | append_singleton init p ih =>
    unfold collect at ih ⊢
    rw [List.foldl_append, List.foldl_cons, List.foldl_nil, Std.ExtTreeMap.getElem?_insert, ih,
      latest_concat]
    by_cases h : p.1 = k
    · simp [h]
    · simp [h]

end

end Lib
