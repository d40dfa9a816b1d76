import Mathlib.Data.List.Basic
import Mathlib.Data.List.Induction

/-!
# Bytes read as UTF-8

`lossy l` is the text of `l` with U+FFFD for each of its longest runs that begin a character and end
before it does.  An ASCII byte is a character of its own, so a text is read piece by piece between
such bytes (`lossy_append_ascii`) and ends in one just where its reading does (`lossy_eq_concat`).
`bytesOf` and `ofBytes` are a text's bytes and the text bytes are of, if any
(`ofBytes_eq_some_iff`).
-/

namespace Lib

def replacement : List UInt8 := [0xEF, 0xBF, 0xBD]

/-- A character that has begun: its bytes, the range of the next one and how many follow that. -/
structure Pending where
  held : List UInt8
  low : UInt8
  high : UInt8
  more : Nat

/-- The range of the byte after `b` in a character it begins, and how many follow that. -/
def lead (b : UInt8) : Option (UInt8 × UInt8 × Nat) :=
  if 0xC2 ≤ b ∧ b ≤ 0xDF then some (0x80, 0xBF, 0)
  else if b = 0xE0 then some (0xA0, 0xBF, 1)
  else if b = 0xED then some (0x80, 0x9F, 1)
  else if 0xE1 ≤ b ∧ b ≤ 0xEF then some (0x80, 0xBF, 1)
  else if b = 0xF0 then some (0x90, 0xBF, 2)
  else if 0xF1 ≤ b ∧ b ≤ 0xF3 then some (0x80, 0xBF, 2)
  else if b = 0xF4 then some (0x80, 0x8F, 2)
  else none

/-- A byte where no character is pending: what is read of it, and what it begins. -/
def readLead (b : UInt8) : List UInt8 × Option Pending :=
  if b < 0x80 then ([b], none)
  else match lead b with
    | some (low, high, more) => ([], some ⟨[b], low, high, more⟩)
    | none => (replacement, none)

def readByte (b : UInt8) : Option Pending → List UInt8 × Option Pending
  | none => readLead b
  | some p =>
    if p.low ≤ b ∧ b ≤ p.high then
      match p.more with
      | 0 => (p.held ++ [b], none)
      | n + 1 => ([], some ⟨p.held ++ [b], 0x80, 0xBF, n⟩)
    else (replacement ++ (readLead b).1, (readLead b).2)

def lossyFrom (pending : Option Pending) : List UInt8 → List UInt8
  | [] => if pending.isSome then replacement else []
  | b :: l => (readByte b pending).1 ++ lossyFrom (readByte b pending).2 l

/-- `String::from_utf8_lossy`. -/
def lossy (l : List UInt8) : List UInt8 := lossyFrom none l

/-- A character pending waits for a byte past ASCII and holds only such bytes. -/
def Pending.Sound (p : Pending) : Prop := 0x80 ≤ p.low ∧ ∀ b ∈ p.held, 0x80 ≤ b

variable {b a : UInt8} {pending : Option Pending} {l m : List UInt8}

theorem lead_low {low high : UInt8} {more : Nat} (h : lead b = some (low, high, more)) :
    0x80 ≤ low := by
  unfold lead at h
  repeat' split at h
  all_goals first
    | (cases h; decide)
    | cases h

theorem le_of_not_ascii (h : ¬b < 0x80) : 0x80 ≤ b := by
  rw [UInt8.lt_iff_toNat_lt] at h
  rw [UInt8.le_iff_toNat_le]
  omega

theorem readLead_sound {p : Pending} (h : (readLead b).2 = some p) : p.Sound := by
  unfold readLead at h
  split at h
  · cases h
  · next hb =>
    split at h
    · next hlow =>
      cases h
      refine ⟨lead_low hlow, fun c hc => ?_⟩
      rw [List.mem_singleton.1 hc]
      exact le_of_not_ascii hb
    · cases h

theorem readByte_sound (hpending : ∀ p, pending = some p → p.Sound) {q : Pending}
    (h : (readByte b pending).2 = some q) : q.Sound := by
  cases pending with
  | none => exact readLead_sound h
  | some p =>
    obtain ⟨hlow, hheld⟩ := hpending p rfl
    unfold readByte at h
    dsimp only at h
    split at h
    · next hb =>
      split at h
      · cases h
      · cases h
        refine ⟨UInt8.le_refl _, fun c hc => ?_⟩
        rcases List.mem_append.1 hc with hc | hc
        · exact hheld c hc
        · rw [List.mem_singleton.1 hc]
          exact UInt8.le_trans hlow hb.1
    · exact readLead_sound h

theorem readLead_ascii (ha : a < 0x80) : readLead a = ([a], none) := by
  rw [readLead, if_pos ha]

theorem readByte_ascii (ha : a < 0x80) (hpending : ∀ p, pending = some p → p.Sound) :
    readByte a pending = (lossyFrom pending [] ++ [a], none) := by
  cases pending with
  | none => exact readLead_ascii ha
  | some p =>
    have hout : ¬(p.low ≤ a ∧ a ≤ p.high) := by
      rintro ⟨hlow, -⟩
      have := UInt8.le_trans (hpending p rfl).1 hlow
      rw [UInt8.lt_iff_toNat_lt] at ha
      rw [UInt8.le_iff_toNat_le] at this
      omega
    simp only [readByte, if_neg hout, readLead_ascii ha, lossyFrom, Option.isSome_some, if_true]

theorem lossyFrom_append_ascii (ha : a < 0x80) (l m : List UInt8)
    (hpending : ∀ p, pending = some p → p.Sound) :
    lossyFrom pending (l ++ a :: m) = lossyFrom pending l ++ a :: lossy m := by
  induction l generalizing pending with
  | nil =>
    show (readByte a pending).1 ++ lossyFrom (readByte a pending).2 m =
      lossyFrom pending [] ++ a :: lossy m
    rw [readByte_ascii ha hpending, List.append_assoc]
    rfl
  | cons b l ih =>
    rw [List.cons_append, lossyFrom, ih fun p hp => readByte_sound hpending hp, lossyFrom,
      List.append_assoc]

theorem lossy_append_ascii (ha : a < 0x80) (l m : List UInt8) :
    lossy (l ++ a :: m) = lossy l ++ a :: lossy m :=
  lossyFrom_append_ascii ha l m (by simp)

theorem lossy_ascii (hl : ∀ a ∈ l, a < 0x80) : lossy l = l := by
  induction l with
  | nil => rfl
  | cons a l ih =>
    have h := lossy_append_ascii (hl a List.mem_cons_self) [] l
    rw [List.nil_append] at h
    rw [h, ih fun b hb => hl b (List.mem_cons_of_mem _ hb)]
    rfl

theorem lossy_append_ascii_text (l : List UInt8) (hm : ∀ a ∈ m, a < 0x80) :
    lossy (l ++ m) = lossy l ++ m := by
  cases m with
  | nil => rw [List.append_nil, List.append_nil]
  | cons a m =>
    rw [lossy_append_ascii (hm a List.mem_cons_self),
      lossy_ascii fun b hb => hm b (List.mem_cons_of_mem _ hb)]

/-! ## The end of a reading -/

/-- A text that ends in a byte past ASCII. -/
def Wide (l : List UInt8) : Prop := ∃ o b, l = o ++ [b] ∧ 0x80 ≤ b

theorem Wide.append (hm : Wide m) (l : List UInt8) : Wide (l ++ m) := by
  obtain ⟨o, b, rfl, hb⟩ := hm
  exact ⟨l ++ o, b, (List.append_assoc ..).symm, hb⟩

theorem wide_replacement : Wide replacement := ⟨[0xEF, 0xBF], 0xBD, rfl, by decide⟩

theorem readLead_wide (hb : 0x80 ≤ b) : Wide ((readLead b).1 ++ lossyFrom (readLead b).2 []) := by
  unfold readLead
  split
  · next hlt =>
    rw [UInt8.lt_iff_toNat_lt] at hlt
    rw [UInt8.le_iff_toNat_le] at hb
    omega
  · split
    · exact wide_replacement
    · exact wide_replacement

theorem readByte_wide (hb : 0x80 ≤ b) (pending : Option Pending) :
    Wide ((readByte b pending).1 ++ lossyFrom (readByte b pending).2 []) := by
  cases pending with
  | none => exact readLead_wide hb
  | some p =>
    unfold readByte
    dsimp only
    split
    · split
      · exact ⟨p.held, b, List.append_nil _, hb⟩
      · exact wide_replacement
    · rw [List.append_assoc]
      exact (readLead_wide hb).append _

theorem lossyFrom_wide (hb : 0x80 ≤ b) (l : List UInt8) (pending : Option Pending) :
    Wide (lossyFrom pending (l ++ [b])) := by
  induction l generalizing pending with
  | nil => exact readByte_wide hb pending
  | cons c l ih => exact (ih _).append _

variable {u : List UInt8} {s : String}

theorem lossy_eq_concat (ha : a < 0x80) (h : lossy l = u ++ [a]) :
    ∃ v, l = v ++ [a] ∧ lossy v = u := by
  rcases List.eq_nil_or_concat l with rfl | ⟨v, c, rfl⟩
  · cases u <;> cases h
  rw [List.concat_eq_append] at *
  by_cases hc : c < 0x80
  · rw [lossy_append_ascii hc] at h
    obtain ⟨rfl, hca⟩ := List.append_inj' h rfl
    cases hca
    exact ⟨v, rfl, rfl⟩
  · obtain ⟨o, b, hob, hb⟩ := lossyFrom_wide (le_of_not_ascii hc) v none
    obtain ⟨-, hba⟩ := List.append_inj' (h.symm.trans hob) rfl
    cases hba
    rw [UInt8.lt_iff_toNat_lt] at ha
    rw [UInt8.le_iff_toNat_le] at hb
    omega

theorem lossy_eq_append (hm : ∀ a ∈ m, a < 0x80) (h : lossy l = u ++ m) :
    ∃ v, l = v ++ m ∧ lossy v = u := by
  induction m using List.reverseRecOn generalizing l with
  | nil => exact ⟨l, by simp, by simpa using h⟩
  | append_singleton m a ih =>
    rw [← List.append_assoc] at h
    obtain ⟨v, rfl, hv⟩ := lossy_eq_concat (hm a (by simp)) h
    obtain ⟨w, rfl, hw⟩ := ih (fun b hb => hm b (by simp [hb])) hv
    exact ⟨w, List.append_assoc .., hw⟩

theorem lossy_eq_ascii (hm : ∀ a ∈ m, a < 0x80) (h : lossy l = m) : l = m := by
  obtain ⟨v, rfl, hv⟩ := lossy_eq_append hm (u := []) h
  rcases List.eq_nil_or_concat v with rfl | ⟨w, b, rfl⟩
  · rfl
  · exact absurd hv (by
      rw [List.concat_eq_append]
      by_cases hb : b < 0x80
      · rw [lossy_append_ascii hb]
        simp
      · obtain ⟨o, c, hoc, -⟩ := lossyFrom_wide (le_of_not_ascii hb) w none
        rw [lossy, hoc]
        simp)

theorem not_mem_wide (hl : ∀ b ∈ l, 0x80 ≤ b) (ha : a < 0x80) : a ∉ l := by
  intro h
  have hle := hl a h
  rw [UInt8.lt_iff_toNat_lt] at ha
  rw [UInt8.le_iff_toNat_le] at hle
  omega

theorem mem_readLead (ha : a < 0x80) (h : a ∈ (readLead b).1) : a = b := by
  unfold readLead at h
  split at h
  · exact List.mem_singleton.1 h
  · split at h
    · cases h
    · exact absurd h (not_mem_wide (by decide +kernel) ha)

theorem mem_readByte (ha : a < 0x80) (hpending : ∀ p, pending = some p → p.Sound)
    (h : a ∈ (readByte b pending).1) : a = b := by
  cases pending with
  | none => exact mem_readLead ha h
  | some p =>
    unfold readByte at h
    dsimp only at h
    split at h
    · split at h
      · rcases List.mem_append.1 h with h | h
        · exact absurd h (not_mem_wide (hpending p rfl).2 ha)
        · exact List.mem_singleton.1 h
      · cases h
    · rcases List.mem_append.1 h with h | h
      · exact absurd h (not_mem_wide (by decide +kernel) ha)
      · exact mem_readLead ha h

theorem mem_of_mem_lossyFrom (ha : a < 0x80) (hpending : ∀ p, pending = some p → p.Sound)
    (h : a ∈ lossyFrom pending l) : a ∈ l := by
  induction l generalizing pending with
  | nil =>
    unfold lossyFrom at h
    split at h
    · exact absurd h (not_mem_wide (by decide +kernel) ha)
    · cases h
  | cons b l ih =>
    rcases List.mem_append.1 h with h | h
    · exact mem_readByte ha hpending h ▸ List.mem_cons_self
    · exact List.mem_cons_of_mem _ (ih (fun p hp => readByte_sound hpending hp) h)

theorem mem_of_mem_lossy (ha : a < 0x80) (h : a ∈ lossy l) : a ∈ l :=
  mem_of_mem_lossyFrom ha (by simp) h

/-! ## A text's bytes -/

/-- `str::as_bytes`. -/
def bytesOf (s : String) : List UInt8 := s.toUTF8.data.toList

/-- `String::from_utf8`. -/
def ofBytes (l : List UInt8) : Option String := String.fromUTF8? ⟨l.toArray⟩

theorem ofBytes_eq_some_iff : ofBytes l = some s ↔ bytesOf s = l := by
  unfold ofBytes String.fromUTF8? bytesOf
  constructor
  · intro h
    split at h
    · cases h
      rfl
    · cases h
  · rintro rfl
    exact (dif_pos s.isValidUTF8).trans rfl

theorem bytesOf_inj {t : String} (h : bytesOf s = bytesOf t) : s = t :=
  Option.some.inj ((ofBytes_eq_some_iff.2 h).symm.trans (ofBytes_eq_some_iff.2 rfl))

@[simp] theorem bytesOf_empty : bytesOf "" = [] := rfl

theorem bytesOf_eq_nil_iff : bytesOf s = [] ↔ s = "" :=
  ⟨fun h => bytesOf_inj (h.trans bytesOf_empty.symm), fun h => h ▸ bytesOf_empty⟩

theorem bytesOf_ofList (l : List Char) :
    bytesOf (String.ofList l) = l.flatMap String.utf8EncodeChar := by
  unfold bytesOf
  rw [String.toUTF8_eq_toByteArray, String.toByteArray_ofList]
  simp [List.utf8Encode]

theorem bytesOf_ascii {l : List Char} (h : ∀ c ∈ l, c.toNat < 0x80) :
    bytesOf (String.ofList l) = l.map fun c => UInt8.ofNat c.toNat := by
  rw [bytesOf_ofList, List.map_eq_flatMap]
  refine List.flatMap_congr fun c hc => ?_
  have hlow : c.val.toNat < 0x80 := h c hc
  exact if_pos (Nat.le_of_lt_succ hlow)

end Lib
