import AethelDB.Common.Basic

/-!
# Reading identifiers back from text

`FromStr` of `common/src/ids.rs`, one macro body for tenant and timeline ids. The
text must be 32 bytes long; it is cut into sixteen slices of two bytes, and each is
read with `u8::from_str_radix(_, 16)`, which takes digits of either case and a
leading `+`. So a text that is read is not always the text the id prints as
(`"+f"` and `"0F"` both read as `15`); the other direction is `parse_display`.

`s.len()` counts bytes while `&s[i * 2..i * 2 + 2]` must fall between characters:
a text of 32 bytes with a wide character in the wrong place is neither read nor
refused, the slice panics.
-/

namespace AethelDB

inductive Parsed (α : Type) where
  | ok (value : α)
  | error (msg : String)
  | panicked
deriving DecidableEq

def Parsed.map {α β : Type} (f : α → β) : Parsed α → Parsed β
  | ok a => ok (f a)
  | error msg => error msg
  | panicked => panicked

/-- `char::to_digit(16)`. -/
def toHexDigit (c : Char) : Option Nat :=
  if '0' ≤ c ∧ c ≤ '9' then some (c.toNat - '0'.toNat)
  else if 'a' ≤ c ∧ c ≤ 'f' then some (c.toNat - 'a'.toNat + 10)
  else if 'A' ≤ c ∧ c ≤ 'F' then some (c.toNat - 'A'.toNat + 10)
  else none

/-- `u8::from_str_radix(_, 16)` on a slice of two bytes. -/
def fromStrRadix16 : List Char → Option UInt8
  | [a, b] =>
    if a = '+' then (toHexDigit b).map UInt8.ofNat
    else
      match toHexDigit a, toHexDigit b with
      | some hi, some lo => some (UInt8.ofNat (hi * 16 + lo))
      | _, _ => none
  | _ => none

/-- The first two bytes, if they end between characters, and what follows. -/
def splitTwoBytes : List Char → Option (List Char × List Char)
  | a :: rest =>
    if a.utf8Size = 2 then some ([a], rest)
    else
      match rest with
      | b :: rest' =>
        if a.utf8Size = 1 ∧ b.utf8Size = 1 then some ([a, b], rest') else none
      | [] => none
  | [] => none

/-- The loop over the bytes still to be read. -/
def parseBytes (name : String) :
    (n : Nat) → List Char → Parsed { bytes : List UInt8 // bytes.length = n }
  | 0, _ => .ok ⟨[], rfl⟩
  | n + 1, cs =>
    match splitTwoBytes cs with
    | none => .panicked
    | some (hi, rest) =>
      match fromStrRadix16 hi with
      | none =>
        .error ("parse error: invalid hex in " ++ name ++ ": invalid digit found in string")
      | some byte =>
        (parseBytes name n rest).map fun bytes => ⟨byte :: bytes.1, congrArg (· + 1) bytes.2⟩

/-- `str::len`. -/
def byteLen (cs : List Char) : Nat := (cs.map Char.utf8Size).sum

/-- The `from_str` the macro writes for the type `name`. -/
def HexId.parse (name : String) (s : String) : Parsed HexId :=
  if byteLen s.toList = 32 then
    (parseBytes name 16 s.toList).map fun bytes => ⟨bytes.1, bytes.2⟩
  else
    .error ("parse error: " ++ name ++ " must be 32 hex chars, got "
      ++ toString (byteLen s.toList))

def TenantId.parse (s : String) : Parsed TenantId := (HexId.parse "TenantId" s).map TenantId.mk

def TimelineId.parse (s : String) : Parsed TimelineId :=
  (HexId.parse "TimelineId" s).map TimelineId.mk

/-! ## What is printed is read back -/

theorem digitChar_facts {d : Nat} (h : d < 16) :
    toHexDigit (Nat.digitChar d) = some d ∧ (Nat.digitChar d).utf8Size = 1 ∧
      Nat.digitChar d ≠ '+' := by
  interval_cases d <;> decide

theorem digits_lt (b : UInt8) : b.toNat / 16 < 16 ∧ b.toNat % 16 < 16 := by
  have := b.toNat_lt
  omega

theorem splitTwoBytes_digits (b : UInt8) (rest : List Char) :
    splitTwoBytes (Nat.digitChar (b.toNat / 16) :: Nat.digitChar (b.toNat % 16) :: rest)
      = some ([Nat.digitChar (b.toNat / 16), Nat.digitChar (b.toNat % 16)], rest) := by
  have hhi := (digitChar_facts (digits_lt b).1).2.1
  have hlo := (digitChar_facts (digits_lt b).2).2.1
  simp [splitTwoBytes, hhi, hlo]

theorem fromStrRadix16_digits (b : UInt8) :
    fromStrRadix16 [Nat.digitChar (b.toNat / 16), Nat.digitChar (b.toNat % 16)] = some b := by
  obtain ⟨hhi, _, hplus⟩ := digitChar_facts (digits_lt b).1
  have hlo := (digitChar_facts (digits_lt b).2).1
  have hsum : b.toNat / 16 * 16 + b.toNat % 16 = b.toNat := by omega
  simp only [fromStrRadix16, if_neg hplus, hhi, hlo, hsum, UInt8.ofNat_toNat]

theorem parseBytes_digits (name : String) (bytes : List UInt8) :
    parseBytes name bytes.length (bytes.flatMap fun b =>
      [Nat.digitChar (b.toNat / 16), Nat.digitChar (b.toNat % 16)]) = .ok ⟨bytes, rfl⟩ := by
  induction bytes with
  | nil => rfl
  | cons b bytes ih =>
    rw [List.flatMap_cons, List.cons_append, List.cons_append, List.nil_append]
    simp only [List.length_cons, parseBytes, splitTwoBytes_digits, fromStrRadix16_digits, ih]
    rfl

theorem byteLen_digits (bytes : List UInt8) :
    byteLen (bytes.flatMap fun b =>
      [Nat.digitChar (b.toNat / 16), Nat.digitChar (b.toNat % 16)]) = 2 * bytes.length := by
  induction bytes with
  | nil => rfl
  | cons b bytes ih =>
    have hhi := (digitChar_facts (digits_lt b).1).2.1
    have hlo := (digitChar_facts (digits_lt b).2).2.1
    unfold byteLen at ih ⊢
    rw [List.flatMap_cons, List.map_append, List.sum_append, ih]
    simp only [List.map_cons, List.map_nil, List.sum_cons, List.sum_nil, hhi, hlo,
      List.length_cons]
    omega

namespace HexId

/-- **An identifier is read back from what it prints as.** -/
theorem parse_display (name : String) (i : HexId) : parse name i.display = .ok i := by
  obtain ⟨bytes, size⟩ := i
  unfold parse display
  rw [String.toList_ofList, byteLen_digits, size, if_pos rfl]
  have h := parseBytes_digits name bytes
  revert h
  generalize (bytes.flatMap fun b => _) = cs
  intro h
  have hcast : ∀ {n : Nat} (hn : bytes.length = n), parseBytes name n cs = .ok ⟨bytes, hn⟩ := by
    rintro n rfl
    exact h
  rw [hcast size]
  rfl

theorem display_injective : Function.Injective display := by
  intro i j h
  have hi := parse_display "" i
  rw [h, parse_display] at hi
  exact (Parsed.ok.inj hi).symm

end HexId

theorem TenantId.parse_display (t : TenantId) : TenantId.parse t.id.display = .ok t := by
  rw [TenantId.parse, HexId.parse_display]
  rfl

theorem TimelineId.parse_display (t : TimelineId) : TimelineId.parse t.id.display = .ok t := by
  rw [TimelineId.parse, HexId.parse_display]
  rfl

theorem TenantId.display_injective : Function.Injective fun t : TenantId => t.id.display :=
  HexId.display_injective.comp fun _ _ h => congrArg TenantId.mk h

theorem TimelineId.display_injective : Function.Injective fun t : TimelineId => t.id.display :=
  HexId.display_injective.comp fun _ _ h => congrArg TimelineId.mk h

end AethelDB
