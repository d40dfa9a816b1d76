import Rigger.Lib.Utf8
import Rigger.Worktree.Sweep

/-!
# The names of scratch directories (`rigger-driver/src/liveness.rs`)

A spawn's id is written as a file name byte by byte: an ASCII letter, a digit or a dash as itself,
any other byte as `_` and two lowercase hex digits.  The reader of such a name takes either case of
a digit and any byte's escape: `scratch_iff` says which names it reads as the writer's own.
-/

namespace Rigger.Liveness

open Lib hiding slice
open Worktree

/-! ## The code -/

/-- `is_ascii_alphanumeric() || == b'-'`. -/
def isBare (b : UInt8) : Bool :=
  (0x30 ≤ b && b ≤ 0x39) || (0x41 ≤ b && b ≤ 0x5A) || (0x61 ≤ b && b ≤ 0x7A) || b == 0x2D

def encodeByte (b : UInt8) : List Char :=
  if isBare b then [Char.ofNat b.toNat]
  else ['_', Nat.digitChar (b.toNat / 16), Nat.digitChar (b.toNat % 16)]

def markerFilename (spawnId : String) : Option String :=
  let encoded := (bytesOf spawnId).flatMap encodeByte
  if encoded = [] then none else some (String.ofList encoded)

def isHexDigit (b : UInt8) : Bool :=
  (0x30 ≤ b && b ≤ 0x39) || (0x41 ≤ b && b ≤ 0x46) || (0x61 ≤ b && b ≤ 0x66)

/-- A digit as `u8::from_str_radix` reads it. -/
def hexValue (b : UInt8) : UInt8 :=
  if b ≤ 0x39 then b - 0x30 else if b ≤ 0x46 then b - 0x37 else b - 0x57

/-- The loop of `decode_marker_filename`. -/
def decodeBytes : List UInt8 → Option (List UInt8)
  | [] => some []
  | b :: bytes =>
    if b = 0x5F then
      match bytes with
      | high :: low :: rest =>
        if isHexDigit high && isHexDigit low then
          (decodeBytes rest).map fun out => (hexValue high * 16 + hexValue low) :: out
        else none
      | _ => none
    else if isBare b then (decodeBytes bytes).map fun out => b :: out
    else none

def decodeMarkerFilename (encoded : String) : Option String :=
  (decodeBytes (bytesOf encoded)).bind fun out => if out = [] then none else ofBytes out

/-- `Path::join`. -/
def join (base part : String) : String :=
  if part.toList.head? = some '/' then part
  else if base.toList.getLast?.all (· = '/') then base ++ part
  else base ++ "/" ++ part

def scratchSubpath (root subdir runId spawnId : String) : Option String :=
  if root = "" then none
  else
    let dir := join root subdir
    let dir := (markerFilename runId).elim dir (join dir)
    (markerFilename spawnId).map (join dir)

/-! ## Pieces -/

/-- What a name is spelled in. -/
inductive Piece where
  | bare (b : UInt8)
  | escape (high low : UInt8)
deriving DecidableEq

def Piece.bytes : Piece → List UInt8
  | .bare b => [b]
  | .escape high low => [0x5F, high, low]

def Piece.value : Piece → UInt8
  | .bare b => b
  | .escape high low => hexValue high * 16 + hexValue low

/-- The reader takes the piece. -/
def Piece.Read : Piece → Prop
  | .bare b => isBare b = true
  | .escape high low => isHexDigit high = true ∧ isHexDigit low = true

def isUpper (b : UInt8) : Bool := 0x41 ≤ b && b ≤ 0x46

/-- An escape is in lowercase, and of a byte that needs one. -/
def Piece.Needed : Piece → Prop
  | .bare _ => True
  | .escape high low => isUpper high = false ∧ isUpper low = false ∧
      isBare (hexValue high * 16 + hexValue low) = false

instance : (p : Piece) → Decidable p.Read
  | .bare b => inferInstanceAs (Decidable (isBare b = true))
  | .escape high low => inferInstanceAs (Decidable (isHexDigit high = true ∧ isHexDigit low = true))

instance : (p : Piece) → Decidable p.Needed
  | .bare _ => inferInstanceAs (Decidable True)
  | .escape _ _ => inferInstanceAs (Decidable (_ ∧ _ ∧ _))

/-- The pieces a name is read in. -/
structure Spells (pieces : List Piece) (name : String) : Prop where
  read : ∀ p ∈ pieces, p.Read
  bytes : bytesOf name = pieces.flatMap Piece.bytes

/-- If the name can be read at all, each escape of it is a needed one in lowercase. -/
def Normal (name : String) : Prop :=
  ∀ pieces, Spells pieces name → pieces ≠ [] → (ofBytes (pieces.map Piece.value)).isSome = true →
    ∀ p ∈ pieces, p.Needed

/-- The piece a byte is written as. -/
def pieceOf (b : UInt8) : Piece :=
  if isBare b then .bare b
  else .escape (UInt8.ofNat (Nat.digitChar (b.toNat / 16)).toNat)
    (UInt8.ofNat (Nat.digitChar (b.toNat % 16)).toNat)

/-! ### Bytes -/

theorem pieceOf_all : ∀ n, n < 256 →
    (pieceOf n.toUInt8).value = n.toUInt8 ∧ (pieceOf n.toUInt8).Read ∧ (pieceOf n.toUInt8).Needed ∧
    (encodeByte n.toUInt8).map (fun c => UInt8.ofNat c.toNat) = (pieceOf n.toUInt8).bytes ∧
    ((encodeByte n.toUInt8).all fun c => c.toNat < 0x80 && c != '/' && c != '.') = true := by
  decide +kernel

theorem pieceOf_byte (b : UInt8) :
    (pieceOf b).value = b ∧ (pieceOf b).Read ∧ (pieceOf b).Needed ∧
    (encodeByte b).map (fun c => UInt8.ofNat c.toNat) = (pieceOf b).bytes ∧
    ((encodeByte b).all fun c => c.toNat < 0x80 && c != '/' && c != '.') = true := by
  have h := pieceOf_all b.toNat b.toNat_lt
  have heq : b.toNat.toUInt8 = b := by simp
  rwa [heq] at h

variable {b : UInt8} {name id : String}

theorem encodeByte_char {c : Char} (h : c ∈ encodeByte b) : c.toNat < 0x80 ∧ c ≠ '/' ∧ c ≠ '.' := by
  have hall := List.all_eq_true.1 (pieceOf_byte b).2.2.2.2 c h
  simpa [and_assoc] using hall

def hexDigits : List UInt8 :=
  [0x30, 0x31, 0x32, 0x33, 0x34, 0x35, 0x36, 0x37, 0x38, 0x39, 0x41, 0x42, 0x43, 0x44, 0x45, 0x46,
    0x61, 0x62, 0x63, 0x64, 0x65, 0x66]

theorem mem_hexDigits (h : isHexDigit b = true) : b ∈ hexDigits := by
  have hall : ∀ n, n < 256 → isHexDigit n.toUInt8 = true → n.toUInt8 ∈ hexDigits := by
    decide +kernel
  have heq : b.toNat.toUInt8 = b := by simp
  have hmem := hall b.toNat b.toNat_lt
  rw [heq] at hmem
  exact hmem h

theorem pieceOf_escape : ∀ high ∈ hexDigits, ∀ low ∈ hexDigits, (Piece.escape high low).Needed →
    pieceOf (Piece.escape high low).value = .escape high low := by
  decide +kernel

theorem Piece.Read.pieceOf_value {p : Piece} (h : p.Read) : pieceOf p.value = p ↔ p.Needed := by
  constructor
  · intro heq
    rw [← heq]
    exact (pieceOf_byte p.value).2.2.1
  · intro hneeded
    cases p with
    | bare b => exact if_pos h
    | escape high low =>
      exact pieceOf_escape high (mem_hexDigits h.1) low (mem_hexDigits h.2) hneeded

/-! ### The writer and the reader in pieces -/

theorem bare_ne (h : isBare b = true) : b ≠ 0x5F := by
  rintro rfl
  exact absurd h (by decide)

theorem decodeBytes_escape (high low : UInt8) (rest : List UInt8) :
    decodeBytes (0x5F :: high :: low :: rest) = if isHexDigit high && isHexDigit low then
      (decodeBytes rest).map fun out => (hexValue high * 16 + hexValue low) :: out else none := by
  rw [decodeBytes, if_pos rfl]

theorem decodeBytes_bare (hb : b ≠ 0x5F) (bytes : List UInt8) :
    decodeBytes (b :: bytes) =
      if isBare b then (decodeBytes bytes).map fun out => b :: out else none := by
  rw [decodeBytes.eq_def]
  exact if_neg hb

theorem decodeBytes_eq_some_iff {l out : List UInt8} : decodeBytes l = some out ↔
    ∃ ps : List Piece, (∀ p ∈ ps, p.Read) ∧ l = ps.flatMap Piece.bytes ∧
    out = ps.map Piece.value := by
  constructor
  · intro h
    induction l using decodeBytes.induct generalizing out with
    | case1 =>
      cases h
      exact ⟨[], by simp, rfl, rfl⟩
    | case2 high low rest hdigits ih =>
      rw [decodeBytes_escape, if_pos hdigits] at h
      obtain ⟨tail, htail, rfl⟩ := Option.map_eq_some_iff.1 h
      obtain ⟨ps, hread, rfl, rfl⟩ := ih htail
      rw [Bool.and_eq_true] at hdigits
      exact ⟨.escape high low :: ps, List.forall_mem_cons.2 ⟨hdigits, hread⟩, rfl, rfl⟩
    | case3 high low rest hdigits =>
      rw [decodeBytes_escape, if_neg hdigits] at h
      cases h
    | case4 bytes hshort =>
      -- A mark with fewer than two bytes after it.
      match bytes, hshort with
      | [], _ => cases h
      | [_], _ => cases h
      | high :: low :: rest, hshort => exact (hshort high low rest rfl).elim
    | case5 b bytes hmark hbare ih =>
      rw [decodeBytes_bare hmark, if_pos hbare] at h
      obtain ⟨tail, htail, rfl⟩ := Option.map_eq_some_iff.1 h
      obtain ⟨ps, hread, rfl, rfl⟩ := ih htail
      exact ⟨.bare b :: ps, List.forall_mem_cons.2 ⟨hbare, hread⟩, rfl, rfl⟩
    | case6 b bytes hmark hbare =>
      rw [decodeBytes_bare hmark, if_neg hbare] at h
      cases h
  · rintro ⟨ps, hread, rfl, rfl⟩
    induction ps with
    | nil => rfl
    | cons p ps ih =>
      obtain ⟨hp, hps⟩ := List.forall_mem_cons.1 hread
      have htail := ih hps
      cases p with
      | bare b =>
        have hbare : isBare b = true := hp
        show decodeBytes (b :: ps.flatMap Piece.bytes) = _
        rw [decodeBytes_bare (bare_ne hbare), if_pos hbare, htail]
        rfl
      | escape high low =>
        show decodeBytes (0x5F :: high :: low :: ps.flatMap Piece.bytes) = _
        rw [decodeBytes_escape, if_pos (Bool.and_eq_true .. ▸ hp), htail]
        rfl

theorem flatMap_bytes_inj {ps qs : List Piece} (hps : ∀ p ∈ ps, p.Read) (hqs : ∀ q ∈ qs, q.Read)
    (h : ps.flatMap Piece.bytes = qs.flatMap Piece.bytes) : ps = qs := by
  induction ps generalizing qs with
  | nil =>
    cases qs with
    | nil => rfl
    | cons q qs => cases q <;> cases h
  | cons p ps ih =>
    obtain ⟨hp, hps'⟩ := List.forall_mem_cons.1 hps
    cases qs with
    | nil => cases p <;> cases h
    | cons q qs =>
      obtain ⟨hq, hqs'⟩ := List.forall_mem_cons.1 hqs
      have hrest : p = q ∧ ps.flatMap Piece.bytes = qs.flatMap Piece.bytes := by
        rw [List.flatMap_cons, List.flatMap_cons] at h
        cases p with
        | bare b =>
          cases q with
          | bare c => exact ⟨congrArg Piece.bare (List.cons.inj h).1, (List.cons.inj h).2⟩
          | escape high low => exact absurd (List.cons.inj h).1 (bare_ne hp)
        | escape high low =>
          cases q with
          | bare c => exact absurd (List.cons.inj h).1.symm (bare_ne hq)
          | escape high' low' =>
            have hhigh := List.cons.inj (List.cons.inj h).2
            have hlow := List.cons.inj hhigh.2
            rw [hhigh.1, hlow.1]
            exact ⟨rfl, hlow.2⟩
      rw [hrest.1, ih hps' hqs' hrest.2]

theorem decodeMarkerFilename_eq_some_iff : decodeMarkerFilename name = some id ↔
    ∃ ps, Spells ps name ∧ ps ≠ [] ∧ bytesOf id = ps.map Piece.value := by
  unfold decodeMarkerFilename
  rw [Option.bind_eq_some_iff]
  constructor
  · rintro ⟨out, hout, h⟩
    obtain ⟨ps, hread, hbytes, rfl⟩ := decodeBytes_eq_some_iff.1 hout
    split at h
    · cases h
    · next hne => exact ⟨ps, ⟨hread, hbytes⟩, by simpa using hne, ofBytes_eq_some_iff.1 h⟩
  · rintro ⟨ps, hspells, hne, hvalue⟩
    refine ⟨_, decodeBytes_eq_some_iff.2 ⟨ps, hspells.read, hspells.bytes, rfl⟩, ?_⟩
    rw [if_neg (by simpa using hne), ofBytes_eq_some_iff, hvalue]

theorem encodeByte_ne_nil (b : UInt8) : encodeByte b ≠ [] := by
  unfold encodeByte
  split <;> simp

theorem markerFilename_eq_none_iff : markerFilename id = none ↔ id = "" := by
  have hempty : (bytesOf id).flatMap encodeByte = [] ↔ id = "" := by
    rw [List.flatMap_eq_nil_iff, ← bytesOf_eq_nil_iff]
    constructor
    · intro h
      exact List.eq_nil_iff_forall_not_mem.2 fun b hb => encodeByte_ne_nil b (h b hb)
    · intro h b hb
      rw [h] at hb
      cases hb
  unfold markerFilename
  simp [hempty]

/-- A name is written in the pieces of the id's bytes. -/
theorem markerFilename_eq_some_iff : markerFilename id = some name ↔
    id ≠ "" ∧ bytesOf name = ((bytesOf id).map pieceOf).flatMap Piece.bytes := by
  have hascii : ∀ c ∈ (bytesOf id).flatMap encodeByte, c.toNat < 0x80 := by
    intro c hc
    obtain ⟨b, -, hc⟩ := List.mem_flatMap.1 hc
    exact (encodeByte_char hc).1
  have hbytes : bytesOf (String.ofList ((bytesOf id).flatMap encodeByte)) =
      ((bytesOf id).map pieceOf).flatMap Piece.bytes := by
    rw [bytesOf_ascii hascii, List.map_flatMap, List.flatMap_map]
    exact List.flatMap_congr fun b _ => (pieceOf_byte b).2.2.2.1
  rw [ne_eq, ← markerFilename_eq_none_iff]
  unfold markerFilename
  dsimp only
  split
  · simp
  · rw [Option.some_inj, and_iff_right (Option.some_ne_none _), ← hbytes]
    exact ⟨fun h => h ▸ rfl, fun h => (bytesOf_inj h).symm⟩

theorem map_value_pieceOf (l : List UInt8) : (l.map pieceOf).map Piece.value = l := by
  rw [List.map_map]
  exact (List.map_congr_left fun b _ => (pieceOf_byte b).1).trans l.map_id

theorem spells_markerFilename (h : markerFilename id = some name) :
    Spells ((bytesOf id).map pieceOf) name where
  read p hp := by
    obtain ⟨b, -, rfl⟩ := List.mem_map.1 hp
    exact (pieceOf_byte b).2.1
  bytes := (markerFilename_eq_some_iff.1 h).2

theorem decode_markerFilename (h : markerFilename id = some name) :
    decodeMarkerFilename name = some id := by
  have hne := (markerFilename_eq_some_iff.1 h).1
  refine decodeMarkerFilename_eq_some_iff.2 ⟨_, spells_markerFilename h, ?_,
    (map_value_pieceOf _).symm⟩
  rw [ne_eq, List.map_eq_nil_iff, bytesOf_eq_nil_iff]
  exact hne

theorem markerFilename_inj {id' : String} (h : markerFilename id = some name)
    (h' : markerFilename id' = some name) : id = id' :=
  Option.some.inj ((decode_markerFilename h).symm.trans (decode_markerFilename h'))

theorem inverse_iff (name : String) :
    (∀ id, decodeMarkerFilename name = some id ↔ markerFilename id = some name) ↔ Normal name := by
  constructor
  · intro h ps hspells hne hvalue p hp
    obtain ⟨id, hid⟩ := Option.isSome_iff_exists.1 hvalue
    have hbytes := ofBytes_eq_some_iff.1 hid
    have hname := (h id).1 (decodeMarkerFilename_eq_some_iff.2 ⟨ps, hspells, hne, hbytes⟩)
    have hown := spells_markerFilename hname
    have hps := flatMap_bytes_inj hspells.read hown.read (hspells.bytes.symm.trans hown.bytes)
    rw [hps] at hp
    obtain ⟨b, -, rfl⟩ := List.mem_map.1 hp
    exact (pieceOf_byte b).2.2.1
  · intro h id
    refine ⟨fun hid => ?_, decode_markerFilename⟩
    obtain ⟨ps, hspells, hne, hvalue⟩ := decodeMarkerFilename_eq_some_iff.1 hid
    have hneeded := h ps hspells hne (by rw [ofBytes_eq_some_iff.2 hvalue]; rfl)
    have hps : (bytesOf id).map pieceOf = ps := by
      rw [hvalue, List.map_map]
      refine (List.map_congr_left fun p hp => ?_).trans ps.map_id
      exact (hspells.read p hp).pieceOf_value.2 (hneeded p hp)
    refine markerFilename_eq_some_iff.2 ⟨fun hempty => hne ?_, by rw [hps, hspells.bytes]⟩
    rw [← hps, hempty]
    rfl

/-! ### Paths -/

/-- What one component of a path holds. -/
def named (parts : List String) : List String := parts.filter fun part => part != "" && part != "."

def partsOf (l : List Char) : List String := (l.splitOn '/').map String.ofList

theorem components_eq (path : String) : components path =
    (if path.toList.head? = some '/' then ["/"]
      else if (partsOf path.toList).head? = some "." then ["."] else []) ++
      named (partsOf path.toList) := by
  unfold components partsOf named
  dsimp only
  split
  · rfl
  · split <;> rfl

variable {l : List Char}

theorem partsOf_append (last : List Char) (h : '/' ∉ last) :
    partsOf (l ++ '/' :: last) = partsOf l ++ [String.ofList last] := by
  unfold partsOf
  rw [List.splitOn_append_cons_self, List.splitOn_eq_singleton h, List.map_append]
  rfl

theorem partsOf_ne_nil (l : List Char) : partsOf l ≠ [] := by
  unfold partsOf
  simp

theorem components_slash {path : String} (hpath : path.toList = l ++ '/' :: name.toList)
    (h : '/' ∉ name.toList) : components path =
      (if (l ++ ['/']).head? = some '/' then ["/"]
        else if (partsOf l).head? = some "." then ["."] else []) ++
        named (partsOf l) ++ named [name] := by
  have hparts : partsOf path.toList = partsOf l ++ [name] := by
    rw [hpath, partsOf_append _ h, String.ofList_toList]
  have hhead : path.toList.head? = (l ++ ['/']).head? := by
    rw [hpath]
    cases l <;> rfl
  have hfirst : (partsOf l ++ [name]).head? = (partsOf l).head? :=
    List.head?_append_of_ne_nil _ (partsOf_ne_nil l)
  have hnamed : named (partsOf l ++ [name]) = named (partsOf l) ++ named [name] :=
    List.filter_append ..
  rw [components_eq, hparts, hhead, hfirst, hnamed, List.append_assoc]

theorem components_join (dir : String) (hempty : name ≠ "") (hdot : name ≠ ".")
    (hslash : '/' ∉ name.toList) : components (join dir name) = components dir ++ [name] := by
  have hhead : name.toList.head? ≠ some '/' := fun h => hslash (List.mem_of_mem_head? h)
  have hnamed : named [name] = [name] := by simp [named, hempty, hdot]
  unfold join
  rw [if_neg hhead]
  rcases List.eq_nil_or_concat dir.toList with hdir | ⟨l, c, hdir⟩
  · have hnil : dir = "" := String.toList_eq_nil_iff.1 hdir
    have hparts : partsOf name.toList = [name] := by
      rw [partsOf, List.splitOn_eq_singleton hslash, List.map_singleton, String.ofList_toList]
    have hfirst : [name].head? ≠ some "." := by simpa using hdot
    have hbare : ("".toList.getLast?).all (· = '/') = true := rfl
    rw [hnil, if_pos hbare, String.empty_append, components_eq name, hparts, hnamed, if_neg hhead,
      if_neg hfirst]
    rfl
  · rw [List.concat_eq_append] at hdir
    by_cases hc : c = '/'
    · subst hc
      have hjoined : (dir ++ name).toList = l ++ '/' :: name.toList := by
        rw [String.toList_append, hdir, List.append_assoc]
        rfl
      have hself : dir.toList = l ++ '/' :: "".toList := hdir
      rw [if_pos (by rw [hdir]; simp), components_slash hjoined hslash,
        components_slash hself (by simp), hnamed]
      simp [named]
    · have hjoined : (dir ++ "/" ++ name).toList = dir.toList ++ '/' :: name.toList := by simp
      have hfirst : (dir.toList ++ ['/']).head? = dir.toList.head? := by
        rw [hdir]
        cases l <;> rfl
      rw [if_neg (by rw [hdir]; simpa using hc), components_slash hjoined hslash, hnamed, hfirst,
        components_eq dir]

theorem markerFilename_safe (h : markerFilename id = some name) :
    name ≠ "" ∧ '/' ∉ name.toList ∧ '.' ∉ name.toList := by
  unfold markerFilename at h
  dsimp only at h
  split at h
  · cases h
  · next hne =>
    cases h
    have hchar : ∀ c ∈ (bytesOf id).flatMap encodeByte, c ≠ '/' ∧ c ≠ '.' := by
      intro c hc
      obtain ⟨b, -, hc⟩ := List.mem_flatMap.1 hc
      exact (encodeByte_char hc).2
    rw [String.toList_ofList]
    refine ⟨fun hempty => hne ?_, fun hmem => (hchar _ hmem).1 rfl, fun hmem =>
      (hchar _ hmem).2 rfl⟩
    have hlist := congrArg String.toList hempty
    rwa [String.toList_ofList] at hlist

theorem ne_of_not_mem {c : Char} {s t : String} (h : c ∉ s.toList) (ht : c ∈ t.toList) : s ≠ t := by
  rintro rfl
  exact h ht

/-- Two components after the directory's: the run's name and the spawn's. -/
theorem scratchSubpath_components {root : String} (subdir : String) {runId spawnId : String}
    (hroot : root ≠ "") (hrun : runId ≠ "") (hspawn : spawnId ≠ "") : ∃ path run spawn,
      scratchSubpath root subdir runId spawnId = some path ∧ markerFilename runId = some run ∧
      markerFilename spawnId = some spawn ∧
      components path = components (join root subdir) ++ [run, spawn] := by
  obtain ⟨run, hrunName⟩ := Option.ne_none_iff_exists'.1 (mt markerFilename_eq_none_iff.1 hrun)
  obtain ⟨spawn, hspawnName⟩ := Option.ne_none_iff_exists'.1
    (mt markerFilename_eq_none_iff.1 hspawn)
  obtain ⟨hrun1, hrun2, hrun3⟩ := markerFilename_safe hrunName
  obtain ⟨hspawn1, hspawn2, hspawn3⟩ := markerFilename_safe hspawnName
  refine ⟨join (join (join root subdir) run) spawn, run, spawn, ?_, hrunName, hspawnName, ?_⟩
  · rw [scratchSubpath, if_neg hroot, hrunName, hspawnName]
    rfl
  · rw [components_join _ hspawn1 (ne_of_not_mem hspawn3 (by simp)) hspawn2,
      components_join _ hrun1 (ne_of_not_mem hrun3 (by simp)) hrun2, List.append_assoc]
    rfl

theorem not_descends_of_length {a b : String}
    (h : (components a).length = (components b).length) : descends a b = false := by
  unfold descends
  rw [h]
  simp

/-! ## What is asked of the names -/

structure Scratch (name : String) : Prop where
  empty : ∀ id, markerFilename id = none ↔ id = ""
  inverse : ∀ id, decodeMarkerFilename name = some id ↔ markerFilename id = some name
  safe : ∀ id encoded, markerFilename id = some encoded →
    encoded ≠ "" ∧ encoded ≠ "." ∧ encoded ≠ ".." ∧ '/' ∉ encoded.toList
  apart : ∀ root subdir run spawn run' spawn', root ≠ "" → run ≠ "" → spawn ≠ "" → run' ≠ "" →
    spawn' ≠ "" → (run, spawn) ≠ (run', spawn') →
    ∃ path path', scratchSubpath root subdir run spawn = some path ∧
      scratchSubpath root subdir run' spawn' = some path' ∧ components path ≠ components path' ∧
      descends path path' = false ∧ descends path' path = false

/-- All of it holds of a name exactly if the name is normal. -/
theorem scratch_iff (name : String) : Scratch name ↔ Normal name := by
  refine ⟨fun h => (inverse_iff name).1 h.inverse, fun h => ⟨fun id => markerFilename_eq_none_iff,
    (inverse_iff name).2 h, fun id encoded hid => ?_, ?_⟩⟩
  · obtain ⟨hempty, hslash, hdot⟩ := markerFilename_safe hid
    exact ⟨hempty, ne_of_not_mem hdot (by simp), ne_of_not_mem hdot (by simp), hslash⟩
  · intro root subdir runId spawnId runId' spawnId' hroot hrun hspawn hrun' hspawn' hne
    obtain ⟨path, run, spawn, hpath, hr, hs, hparts⟩ :=
      scratchSubpath_components subdir hroot hrun hspawn
    obtain ⟨path', run', spawn', hpath', hr', hs', hparts'⟩ :=
      scratchSubpath_components subdir hroot hrun' hspawn'
    have hlength : (components path).length = (components path').length := by
      rw [hparts, hparts']
      simp
    refine ⟨path, path', hpath, hpath', fun heq => hne ?_, not_descends_of_length hlength,
      not_descends_of_length hlength.symm⟩
    rw [hparts, hparts'] at heq
    obtain ⟨hrunEq, hspawnEq⟩ := List.cons.inj (List.append_cancel_left heq)
    rw [markerFilename_inj hr (hrunEq ▸ hr'),
      markerFilename_inj hs ((List.cons.inj hspawnEq).1 ▸ hs')]

/-- The escape of a slash with its digit in uppercase is read, and is not how a slash is written. -/
theorem upper_misread : decodeMarkerFilename "_2F" = some "/" ∧ markerFilename "/" = some "_2f" ∧
    ¬∀ name, Scratch name := by
  have hread : decodeMarkerFilename "_2F" = some "/" := by decide +kernel
  have hwrite : markerFilename "/" = some "_2f" := by decide +kernel
  refine ⟨hread, hwrite, fun h => ?_⟩
  have hname := ((h "_2F").inverse "/").1 hread
  rw [hwrite] at hname
  exact absurd hname (by decide)

end Rigger.Liveness
