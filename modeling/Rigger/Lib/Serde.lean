import Mathlib.Algebra.Group.Int.Defs
import Mathlib.Algebra.Group.Nat.Defs
import Mathlib.Data.List.Basic

/-!
# JSON values and derived decoders

`Json` is a JSON text as a parser hands it on: an integer literal is a `num`, any other number
a `frac` with its spelling, and an object keeps its members in text order, a repeated name
included.

A derived struct decoder reads an object by member name or an array by field order.  `slots`
is that reading: one slot per field, `none` where the text leaves the field out, and no answer
at all for a text that is neither, repeats a known member, or holds more items than the struct
has fields.  `required` and `orDefault` then decode one slot.
-/

namespace Lib

inductive Json where
  | null
  | bool (b : Bool)
  | num (n : Int)
  | frac (text : String)
  | str (s : String)
  | arr (items : List Json)
  | obj (members : List (String × Json))

theorem mapM_eq_some_iff {α β : Type} {f : α → Option β} {l : List α} {r : List β} :
    l.mapM f = some r ↔ l.map f = r.map some := by
  induction l generalizing r with
  | nil =>
    rw [List.mapM_nil, List.map_nil]
    constructor
    · intro h
      cases h
      rfl
    · intro h
      rw [List.map_eq_nil_iff.1 h.symm]
      rfl
  | cons a l ih =>
    rw [List.mapM_cons, List.map_cons, Option.bind_eq_bind, Option.bind_eq_some_iff]
    constructor
    · rintro ⟨b, hb, hrest⟩
      rw [Option.bind_eq_bind, Option.bind_eq_some_iff] at hrest
      obtain ⟨bs, hbs, hr⟩ := hrest
      cases hr
      rw [hb, ih.1 hbs]
      rfl
    · intro h
      cases r with
      | nil => cases h
      | cons b r =>
        rw [List.map_cons, List.cons.injEq] at h
        refine ⟨b, h.1, ?_⟩
        rw [ih.2 h.2]
        rfl

namespace Json

mutual
def beq : Json → Json → Bool
  | null, b => match b with
    | null => true
    | _ => false
  | bool x, b => match b with
    | bool y => x == y
    | _ => false
  | num x, b => match b with
    | num y => x == y
    | _ => false
  | frac x, b => match b with
    | frac y => x == y
    | _ => false
  | str x, b => match b with
    | str y => x == y
    | _ => false
  | arr xs, b => match b with
    | arr ys => beqItems xs ys
    | _ => false
  | obj xs, b => match b with
    | obj ys => beqMembers xs ys
    | _ => false
termination_by structural x => x

def beqItems : List Json → List Json → Bool
  | [], b => b.isEmpty
  | x :: xs, b => match b with
    | [] => false
    | y :: ys => beq x y && beqItems xs ys
termination_by structural x => x

def beqMembers : List (String × Json) → List (String × Json) → Bool
  | [], b => b.isEmpty
  | x :: xs, b => match b with
    | [] => false
    | y :: ys => beqMember x y && beqMembers xs ys
termination_by structural x => x

def beqMember : String × Json → String × Json → Bool
  | (k, x), b => k == b.1 && beq x b.2
termination_by structural x => x
end

mutual
theorem beq_iff : ∀ a b : Json, beq a b = true ↔ a = b
  | null, b => by cases b <;> simp [beq]
  | bool x, b => by cases b <;> simp [beq]
  | num x, b => by cases b <;> simp [beq]
  | frac x, b => by cases b <;> simp [beq]
  | str x, b => by cases b <;> simp [beq]
  | arr xs, b => by
    cases b with
    | arr ys => simp [beq, beqItems_iff xs ys]
    | _ => simp [beq]
  | obj xs, b => by
    cases b with
    | obj ys => simp [beq, beqMembers_iff xs ys]
    | _ => simp [beq]

theorem beqItems_iff : ∀ a b : List Json, beqItems a b = true ↔ a = b
  | [], b => by cases b <;> simp [beqItems]
  | x :: xs, [] => by simp [beqItems]
  | x :: xs, y :: ys => by simp [beqItems, beq_iff x y, beqItems_iff xs ys]

theorem beqMembers_iff : ∀ a b : List (String × Json), beqMembers a b = true ↔ a = b
  | [], b => by cases b <;> simp [beqMembers]
  | x :: xs, [] => by simp [beqMembers]
  | x :: xs, y :: ys => by simp [beqMembers, beqMember_iff x y, beqMembers_iff xs ys]

theorem beqMember_iff : ∀ a b : String × Json, beqMember a b = true ↔ a = b
  | (k, x), (l, y) => by simp [beqMember, beq_iff x y]
end

instance : DecidableEq Json := fun a b => decidable_of_iff _ (beq_iff a b)

/-! ## Values -/

def asStr : Json → Option String
  | str s => some s
  | _ => none

def asBool : Json → Option Bool
  | bool b => some b
  | _ => none

/-- An unsigned integer of `bits` bits. -/
def asUnsigned (bits : Nat) : Json → Option Nat
  | num n => if 0 ≤ n ∧ n < 2 ^ bits then some n.toNat else none
  | _ => none

/-- A signed integer of `bits + 1` bits. -/
def asSigned (bits : Nat) : Json → Option Int
  | num n => if -2 ^ bits ≤ n ∧ n < 2 ^ bits then some n else none
  | _ => none

def asList {α : Type} (item : Json → Option α) : Json → Option (List α)
  | arr items => items.mapM item
  | _ => none

/-- A nullable value: `null` is none. -/
def asOption {α : Type} (item : Json → Option α) : Json → Option (Option α)
  | null => some none
  | v => (item v).map some

/-- The member a dynamic value answers under `name`: the last one written. -/
def get (name : String) : Json → Option Json
  | obj members => (members.reverse.find? fun m => m.1 == name).map Prod.snd
  | _ => none

theorem mapM_map_eq_some {α β : Type} {decode : β → Option α} {encode : α → β}
    (h : ∀ a, decode (encode a) = some a) (l : List α) : (l.map encode).mapM decode = some l := by
  induction l with
  | nil => rfl
  | cons a l ih =>
    rw [List.map_cons, List.mapM_cons, h, ih]
    rfl

/-! ## Structs -/

/-- The members of `members` named `name`, at most one of which a struct takes. -/
def slot (members : List (String × Json)) (name : String) : Option (Option Json) :=
  match members.filter fun m => m.1 == name with
  | [] => some none
  | [m] => some (some m.2)
  | _ => none

def slots (names : List String) : Json → Option (List (Option Json))
  | obj members => names.mapM (slot members)
  | arr items =>
    if items.length ≤ names.length then
      some (items.map some ++ List.replicate (names.length - items.length) none)
    else none
  | _ => none

def required {α : Type} (decode : Json → Option α) (s : Option Json) : Option α := s.bind decode

def orDefault {α : Type} (decode : Json → Option α) (default : α) : Option Json → Option α
  | none => some default
  | some v => decode v

/-! ## Written structs -/

/-- The members of a struct's fields, each left out where it has no value. -/
def members (fields : List (String × Option Json)) : List (String × Json) :=
  fields.filterMap fun f => f.2.map fun v => (f.1, v)

variable {fields : List (String × Option Json)}

theorem slot_members (hnodup : (fields.map Prod.fst).Nodup) {name : String} {v : Option Json}
    (h : (name, v) ∈ fields) : slot (members fields) name = some v := by
  have hfilter : (members fields).filter (fun m => m.1 == name) =
      (v.map fun v => (name, v)).toList := by
    induction fields with
    | nil => cases h
    | cons f fields ih =>
      obtain ⟨hfirst, hrest⟩ := List.nodup_cons.1 hnodup
      have hother : name ∉ fields.map Prod.fst →
          (members fields).filter (fun m => m.1 == name) = [] := by
        intro hname
        refine List.filter_eq_nil_iff.2 fun m hm => ?_
        obtain ⟨g, hg, hgm⟩ := List.mem_filterMap.1 hm
        obtain ⟨w, -, rfl⟩ := Option.map_eq_some_iff.1 hgm
        intro heq
        exact hname (List.mem_map.2 ⟨g, hg, beq_iff_eq.1 heq⟩)
      have hcons : members (f :: fields) = (f.2.map fun v => (f.1, v)).toList ++
          members fields := by
        unfold members
        rw [List.filterMap_cons]
        cases f.2 <;> rfl
      rw [hcons, List.filter_append]
      rcases List.mem_cons.1 h with rfl | h
      · rw [hother hfirst, List.append_nil]
        cases v <;> simp
      · have hname : f.1 ≠ name := by
          rintro rfl
          exact hfirst (List.mem_map.2 ⟨_, h, rfl⟩)
        rw [ih hrest h]
        cases hf : f.2 with
        | none => rfl
        | some w => simp [hname]
  unfold slot
  rw [hfilter]
  cases v <;> rfl

theorem slots_members (hnodup : (fields.map Prod.fst).Nodup) :
    slots (fields.map Prod.fst) (.obj (members fields)) = some (fields.map Prod.snd) := by
  show (fields.map Prod.fst).mapM (slot (members fields)) = _
  rw [mapM_eq_some_iff, List.map_map, List.map_map]
  exact List.map_congr_left fun f hf => slot_members hnodup hf

/-- A text left out where it is empty. -/
def unlessEmpty (s : String) : Option Json := if s = "" then none else some (.str s)

theorem orDefault_unlessEmpty (s : String) : orDefault asStr "" (unlessEmpty s) = some s := by
  unfold unlessEmpty
  split
  · rename_i h
    rw [h]
    rfl
  · rfl

theorem orDefault_asUnsigned {bits : Nat} {o : Option Nat} (h : ∀ n ∈ o, n < 2 ^ bits) :
    orDefault (asOption (asUnsigned bits)) none (o.map fun n => .num n) = some o := by
  cases o with
  | none => rfl
  | some n =>
    have hlt : (n : Int) < 2 ^ bits := by exact_mod_cast h n rfl
    have hread : asUnsigned bits (.num n) = some n := if_pos ⟨Int.natCast_nonneg n, hlt⟩
    exact congrArg (Option.map some) hread

/-- A list of texts left out where it is empty. -/
def unlessNil (l : List String) : Option Json := if l = [] then none else some (.arr (l.map .str))

theorem orDefault_unlessNil (l : List String) : orDefault (asList asStr) []
    (unlessNil l) = some l := by
  unfold unlessNil
  split
  · rename_i h
    rw [h]
    rfl
  · have hitem : ∀ s : String, asStr (.str s) = some s := fun _ => rfl
    exact mapM_map_eq_some hitem l

end Json

end Lib
