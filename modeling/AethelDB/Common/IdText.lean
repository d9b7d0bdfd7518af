import AethelDB.Common.Ids

/-!
# Which texts are identifiers

An id is 32 hexadecimal digits, so the message of `from_str` says. What the loop
over the sixteen slices does is settled here for every text. It goes through the
text pair by pair as long as `from_str_radix` reads the pair, two digits or a `+`
and a digit (`ReadPair`), and then one of three things happens:

- the text is used up, and the id is returned, signs or not;
- the next two bytes are a slice the radix parser refuses, an error;
- the next two bytes end inside a character, a panic.

The first is wrong when a pair had a sign, the third always (`Misread`), and no
other text is misread: `ids_exactly_read_iff`.
-/

namespace AethelDB

def IsHexDigit (c : Char) : Prop :=
  ('0' ≤ c ∧ c ≤ '9') ∨ ('a' ≤ c ∧ c ≤ 'f') ∨ ('A' ≤ c ∧ c ≤ 'F')

/-- What the error message asks for: 32 hex chars. -/
def IsHexText (s : String) : Prop :=
  s.toList.length = 32 ∧ ∀ c ∈ s.toList, IsHexDigit c

/-- Reading `s` came to what it should: no panic, an id for hex text only, and the
id is the one that prints as `s` in lower case. -/
structure ExactlyRead {α : Type} (display : α → String) (s : String) (read : Parsed α) : Prop where
  returns : read ≠ .panicked
  accepted : (∃ id, read = .ok id) ↔ IsHexText s
  printed : ∀ id, read = .ok id → display id = s.toLower

/-! ## One pair of characters -/

variable {c : Char} {p : Char × Char}

/-- Two characters that `from_str_radix(_, 16)` reads as a byte. -/
def ReadPair (p : Char × Char) : Prop :=
  (IsHexDigit p.1 ∨ p.1 = '+') ∧ IsHexDigit p.2

/-- The text that pairs of characters make. -/
def joined (pairs : List (Char × Char)) : List Char := pairs.flatMap fun p => [p.1, p.2]

/-- The first two bytes of the text end inside a character. -/
def CutsCharacter : List Char → Prop
  | a :: b :: _ => 2 < a.utf8Size ∨ (a.utf8Size = 1 ∧ 1 < b.utf8Size)
  | [a] => 2 < a.utf8Size
  | [] => False

/-- The texts of 32 bytes that are neither taken for what they are nor refused. -/
inductive Misread (cs : List Char) : Prop
  | cut (pairs : List (Char × Char)) (rest : List Char) (text : cs = joined pairs ++ rest)
      (read : ∀ p ∈ pairs, ReadPair p) (cuts : CutsCharacter rest)
  | signed (pairs : List (Char × Char)) (text : cs = joined pairs)
      (read : ∀ p ∈ pairs, ReadPair p) (sign : ∃ p ∈ pairs, p.1 = '+')

theorem joined_cons (p : Char × Char) (pairs : List (Char × Char)) :
    joined (p :: pairs) = p.1 :: p.2 :: joined pairs := rfl

theorem toHexDigit_eq_none_iff : toHexDigit c = none ↔ ¬ IsHexDigit c := by
  unfold toHexDigit IsHexDigit
  split_ifs with h0 ha hA <;> simp [*]

theorem exists_toHexDigit (h : IsHexDigit c) : ∃ d, toHexDigit c = some d :=
  Option.ne_none_iff_exists'.mp fun hnone => toHexDigit_eq_none_iff.mp hnone h

theorem isHexDigit_of_toHexDigit {d : Nat} (h : toHexDigit c = some d) : IsHexDigit c := by
  by_contra hc
  rw [toHexDigit_eq_none_iff.mpr hc] at h
  cases h

/-- The codes of the digits, an interval for each clause. -/
theorem IsHexDigit.code (h : IsHexDigit c) :
    (48 ≤ c.toNat ∧ c.toNat ≤ 57) ∨ (97 ≤ c.toNat ∧ c.toNat ≤ 102)
      ∨ (65 ≤ c.toNat ∧ c.toNat ≤ 70) := h

theorem IsHexDigit.utf8Size (h : IsHexDigit c) : c.utf8Size = 1 := by
  have hcode := h.code
  have hsmall : c.toNat ≤ 127 := by omega
  exact Char.utf8Size_eq_one_iff.mpr hsmall

theorem IsHexDigit.ne_plus (h : IsHexDigit c) : c ≠ '+' := by
  rintro rfl
  have hcode := h.code
  have hplus : '+'.toNat = 43 := rfl
  omega

/-- The digit a character stands for prints as the character in lower case. -/
theorem digitChar_of_toHexDigit {d : Nat} (h : toHexDigit c = some d) :
    d < 16 ∧ Nat.digitChar d = c.toLower := by
  have hcode := (isHexDigit_of_toHexDigit h).code
  have hchar := Char.ofNat_toNat c
  generalize c.toNat = n at hcode hchar
  subst hchar
  obtain hc | hc | hc := hcode <;> obtain ⟨hlo, hhi⟩ := hc <;> interval_cases n <;>
    (cases h; decide)

theorem ReadPair.utf8Size (h : ReadPair p) : p.1.utf8Size = 1 ∧ p.2.utf8Size = 1 := by
  obtain ⟨hfirst | hfirst, hsecond⟩ := h
  · exact ⟨hfirst.utf8Size, hsecond.utf8Size⟩
  · rw [hfirst]
    exact ⟨rfl, hsecond.utf8Size⟩

/-- The radix parser reads these pairs and no others. -/
theorem exists_fromStrRadix16_iff (p : Char × Char) :
    (∃ byte, fromStrRadix16 [p.1, p.2] = some byte) ↔ ReadPair p := by
  obtain ⟨a, b⟩ := p
  simp only [ReadPair, fromStrRadix16]
  constructor
  · rintro ⟨byte, h⟩
    split at h
    · next hplus =>
      obtain ⟨d, hd, -⟩ := Option.map_eq_some_iff.mp h
      exact ⟨.inr hplus, isHexDigit_of_toHexDigit hd⟩
    · split at h
      · next ha hb => exact ⟨.inl (isHexDigit_of_toHexDigit ha), isHexDigit_of_toHexDigit hb⟩
      · cases h
  · rintro ⟨hfirst, hsecond⟩
    obtain ⟨lo, hlo⟩ := exists_toHexDigit hsecond
    obtain hfirst | rfl := hfirst
    · obtain ⟨hi, hhi⟩ := exists_toHexDigit hfirst
      exact ⟨UInt8.ofNat (hi * 16 + lo), by simp only [if_neg hfirst.ne_plus, hhi, hlo]⟩
    · exact ⟨UInt8.ofNat lo, by simp only [if_true, hlo, Option.map_some]⟩

/-! ## The slices -/

variable {cs : List Char} {pairs : List (Char × Char)}

theorem splitTwoBytes_readPair (h : ReadPair p) (rest : List Char) :
    splitTwoBytes (p.1 :: p.2 :: rest) = some ([p.1, p.2], rest) := by
  simp [splitTwoBytes, h.utf8Size.1, h.utf8Size.2]

/-- A slice that the radix parser reads is a pair, and the text went on from there. -/
theorem readPair_of_splitTwoBytes {hi rest : List Char} {byte : UInt8}
    (hsplit : splitTwoBytes cs = some (hi, rest)) (hbyte : fromStrRadix16 hi = some byte) :
    ∃ p, ReadPair p ∧ hi = [p.1, p.2] ∧ cs = p.1 :: p.2 :: rest := by
  unfold splitTwoBytes at hsplit
  split at hsplit
  · next a tail =>
    split at hsplit
    · -- one character of two bytes is never a number
      cases hsplit
      cases hbyte
    · split at hsplit
      · next b rest' =>
        split at hsplit
        · cases hsplit
          exact ⟨(a, b), (exists_fromStrRadix16_iff (a, b)).mp ⟨byte, hbyte⟩, rfl, rfl⟩
        · cases hsplit
      · cases hsplit
  · cases hsplit

/-- Where an even number of bytes is left, a slice fails only inside a character. -/
theorem splitTwoBytes_eq_none_iff (heven : byteLen cs % 2 = 0) (hne : cs ≠ []) :
    splitTwoBytes cs = none ↔ CutsCharacter cs := by
  match cs with
  | [] => exact absurd rfl hne
  | [a] =>
    have hpos := a.utf8Size_pos
    have hlen : byteLen [a] = a.utf8Size := Nat.add_zero _
    simp only [splitTwoBytes, CutsCharacter, ite_eq_right_iff, reduceCtorEq, imp_false]
    omega
  | a :: b :: rest =>
    have ha := a.utf8Size_pos
    have hb := b.utf8Size_pos
    simp only [splitTwoBytes, CutsCharacter]
    split_ifs with htwo hone
    · simp [htwo]
    · simp [hone]
    · simp only [true_iff]
      omega

theorem byteLen_append (xs ys : List Char) : byteLen (xs ++ ys) = byteLen xs + byteLen ys := by
  rw [byteLen, List.map_append, List.sum_append]
  rfl

theorem byteLen_joined (hread : ∀ p ∈ pairs, ReadPair p) :
    byteLen (joined pairs) = 2 * pairs.length := by
  induction pairs with
  | nil => rfl
  | cons p pairs ih =>
    obtain ⟨hp, hread⟩ := List.forall_mem_cons.mp hread
    have hpair : byteLen [p.1, p.2] = 2 := by simp [byteLen, hp.utf8Size.1, hp.utf8Size.2]
    rw [show joined (p :: pairs) = [p.1, p.2] ++ joined pairs from rfl, byteLen_append, hpair,
      ih hread, List.length_cons]
    omega

theorem eq_nil_of_byteLen (h : byteLen cs = 0) : cs = [] := by
  cases cs with
  | nil => rfl
  | cons c cs =>
    have hpos := c.utf8Size_pos
    have hcons : byteLen (c :: cs) = c.utf8Size + byteLen cs := List.sum_cons
    omega

/-! ## The loop -/

theorem Parsed.map_eq_ok_iff {α β : Type} {f : α → β} {r : Parsed α} {b : β} :
    r.map f = .ok b ↔ ∃ a, r = .ok a ∧ f a = b := by
  cases r <;> simp [Parsed.map]

theorem Parsed.map_eq_panicked_iff {α β : Type} {f : α → β} {r : Parsed α} :
    r.map f = .panicked ↔ r = .panicked := by
  cases r <;> simp [Parsed.map]

/-- Pairs that can be read are read, one byte each. -/
theorem parseBytes_joined (name : String) {n : Nat} (hlen : pairs.length = n)
    (hread : ∀ p ∈ pairs, ReadPair p) : ∃ bytes, parseBytes name n (joined pairs) = .ok bytes := by
  subst hlen
  induction pairs with
  | nil => exact ⟨_, rfl⟩
  | cons p pairs ih =>
    obtain ⟨hp, hread⟩ := List.forall_mem_cons.mp hread
    obtain ⟨byte, hbyte⟩ := (exists_fromStrRadix16_iff p).mpr hp
    obtain ⟨bytes, hbytes⟩ := ih hread
    refine ⟨⟨byte :: bytes.1, congrArg (· + 1) bytes.2⟩, ?_⟩
    simp only [List.length_cons, parseBytes, joined_cons, splitTwoBytes_readPair hp, hbyte, hbytes,
      Parsed.map]

/-- Only such pairs are: the bytes are theirs. -/
theorem pairs_of_parseBytes {name : String} {n : Nat}
    {bytes : { bytes : List UInt8 // bytes.length = n }} (h : parseBytes name n cs = .ok bytes) :
    ∃ pairs rest, cs = joined pairs ++ rest ∧ pairs.length = n ∧ (∀ p ∈ pairs, ReadPair p)
      ∧ pairs.map (fun p => fromStrRadix16 [p.1, p.2]) = bytes.1.map some := by
  induction n generalizing cs with
  | zero =>
    obtain ⟨bytes, hlen⟩ := bytes
    obtain rfl := List.eq_nil_of_length_eq_zero hlen
    exact ⟨[], cs, rfl, rfl, List.forall_mem_nil _, rfl⟩
  | succ n ih =>
    unfold parseBytes at h
    split at h
    · cases h
    · next hi rest hsplit =>
      split at h
      · cases h
      · next byte hbyte =>
        obtain ⟨tail, htail, rfl⟩ := Parsed.map_eq_ok_iff.mp h
        obtain ⟨p, hp, rfl, rfl⟩ := readPair_of_splitTwoBytes hsplit hbyte
        obtain ⟨pairs, rest', rfl, hlen, hread, hmap⟩ := ih htail
        refine ⟨p :: pairs, rest', rfl, congrArg (· + 1) hlen,
          List.forall_mem_cons.mpr ⟨hp, hread⟩, ?_⟩
        rw [List.map_cons, hbyte, hmap, List.map_cons]

/-- The loop panics at a slice that fails, if it gets there. -/
theorem parseBytes_panicked_iff (name : String) (n : Nat) (cs : List Char) :
    parseBytes name n cs = .panicked ↔
      ∃ pairs rest, cs = joined pairs ++ rest ∧ pairs.length < n ∧ (∀ p ∈ pairs, ReadPair p)
        ∧ splitTwoBytes rest = none := by
  induction n generalizing cs with
  | zero =>
    constructor
    · intro h
      cases h
    · rintro ⟨pairs, rest, -, hlen, -⟩
      exact absurd hlen (Nat.not_lt_zero _)
  | succ n ih =>
    constructor
    · intro h
      unfold parseBytes at h
      split at h
      · next hsplit => exact ⟨[], cs, rfl, Nat.succ_pos n, List.forall_mem_nil _, hsplit⟩
      · next hi rest hsplit =>
        split at h
        · cases h
        · next byte hbyte =>
          obtain ⟨p, hp, rfl, rfl⟩ := readPair_of_splitTwoBytes hsplit hbyte
          obtain ⟨pairs, rest', rfl, hlen, hread, hnone⟩ :=
            (ih rest).mp (Parsed.map_eq_panicked_iff.mp h)
          exact ⟨p :: pairs, rest', rfl, Nat.succ_lt_succ hlen,
            List.forall_mem_cons.mpr ⟨hp, hread⟩, hnone⟩
    · rintro ⟨pairs, rest, rfl, hlen, hread, hnone⟩
      cases pairs with
      | nil =>
        have hnone' : splitTwoBytes (joined [] ++ rest) = none := hnone
        simp only [parseBytes, hnone']
      | cons p pairs =>
        obtain ⟨hp, hread⟩ := List.forall_mem_cons.mp hread
        obtain ⟨byte, hbyte⟩ := (exists_fromStrRadix16_iff p).mpr hp
        have htail := (ih (joined pairs ++ rest)).mpr
          ⟨pairs, rest, rfl, Nat.lt_of_succ_lt_succ hlen, hread, hnone⟩
        simp only [parseBytes, joined_cons, List.cons_append, splitTwoBytes_readPair hp, hbyte,
          htail, Parsed.map]

/-! ## What is printed -/

/-- Two digits that were read print as themselves in lower case. -/
theorem digits_of_fromStrRadix16 {byte : UInt8} (h : fromStrRadix16 [p.1, p.2] = some byte)
    (hsign : p.1 ≠ '+') :
    [Nat.digitChar (byte.toNat / 16), Nat.digitChar (byte.toNat % 16)]
      = [p.1.toLower, p.2.toLower] := by
  simp only [fromStrRadix16, if_neg hsign] at h
  split at h
  · next hi lo hhi hlo =>
    obtain ⟨hhi16, hhichar⟩ := digitChar_of_toHexDigit hhi
    obtain ⟨hlo16, hlochar⟩ := digitChar_of_toHexDigit hlo
    cases h
    have hbyte : (UInt8.ofNat (hi * 16 + lo)).toNat = hi * 16 + lo :=
      UInt8.toNat_ofNat_of_lt (by rw [UInt8.size]; omega)
    rw [hbyte, ← hhichar, ← hlochar, show (hi * 16 + lo) / 16 = hi by omega,
      show (hi * 16 + lo) % 16 = lo by omega]
  · cases h

theorem display_joined {bytes : List UInt8}
    (hmap : pairs.map (fun p => fromStrRadix16 [p.1, p.2]) = bytes.map some)
    (hsign : ∀ p ∈ pairs, p.1 ≠ '+') :
    bytes.flatMap (fun b => [Nat.digitChar (b.toNat / 16), Nat.digitChar (b.toNat % 16)])
      = (joined pairs).map Char.toLower := by
  induction pairs generalizing bytes with
  | nil =>
    obtain rfl := List.map_eq_nil_iff.mp hmap.symm
    rfl
  | cons p pairs ih =>
    cases bytes with
    | nil => cases hmap
    | cons byte bytes =>
      obtain ⟨hbyte, hmap⟩ := List.cons.inj hmap
      obtain ⟨hp, hsign⟩ := List.forall_mem_cons.mp hsign
      rw [List.flatMap_cons, digits_of_fromStrRadix16 hbyte hp, ih hmap hsign]
      rfl

/-! ## Hex text is made of pairs -/

theorem pairs_of_digits {n : Nat} (hlen : cs.length = 2 * n) (hdigits : ∀ c ∈ cs, IsHexDigit c) :
    ∃ pairs, cs = joined pairs ∧ pairs.length = n ∧ ∀ p ∈ pairs, ReadPair p := by
  induction n generalizing cs with
  | zero =>
    obtain rfl := List.eq_nil_of_length_eq_zero hlen
    exact ⟨[], rfl, rfl, List.forall_mem_nil _⟩
  | succ n ih =>
    match cs, hlen, hdigits with
    | a :: b :: cs, hlen, hdigits =>
      obtain ⟨ha, hdigits⟩ := List.forall_mem_cons.mp hdigits
      obtain ⟨hb, hdigits⟩ := List.forall_mem_cons.mp hdigits
      simp only [List.length_cons] at hlen
      obtain ⟨pairs, rfl, hpairs, hread⟩ := ih (by omega) hdigits
      exact ⟨(a, b) :: pairs, rfl, congrArg (· + 1) hpairs,
        List.forall_mem_cons.mpr ⟨⟨.inl ha, hb⟩, hread⟩⟩

theorem digits_of_pairs (hread : ∀ p ∈ pairs, ReadPair p) (hsign : ∀ p ∈ pairs, p.1 ≠ '+') :
    ∀ c ∈ joined pairs, IsHexDigit c := by
  intro c hc
  obtain ⟨p, hp, hc⟩ := List.mem_flatMap.mp hc
  have hfirst := (hread p hp).1.resolve_right (hsign p hp)
  obtain rfl | hc := List.mem_cons.mp hc
  · exact hfirst
  · rw [List.mem_singleton.mp hc]
    exact (hread p hp).2

theorem length_joined (pairs : List (Char × Char)) : (joined pairs).length = 2 * pairs.length := by
  simp only [joined, List.length_flatMap, List.length_cons, List.length_nil, List.map_const',
    List.sum_replicate, smul_eq_mul]
  exact Nat.mul_comm _ _

namespace HexId

variable {s : String}

/-- The parser panics on a text of 32 bytes that has, behind pairs it reads, two bytes
that end inside a character. -/
theorem parse_panicked_iff (name s : String) :
    parse name s = .panicked ↔ byteLen s.toList = 32 ∧
      ∃ pairs rest, s.toList = joined pairs ++ rest ∧ (∀ p ∈ pairs, ReadPair p)
        ∧ CutsCharacter rest := by
  unfold parse
  split_ifs with hlen
  · rw [Parsed.map_eq_panicked_iff, parseBytes_panicked_iff]
    simp only [hlen, true_and]
    refine exists_congr fun pairs => exists_congr fun rest => ?_
    constructor
    · rintro ⟨htext, hcount, hread, hnone⟩
      have hbytes := byteLen_joined hread
      rw [htext, byteLen_append, hbytes] at hlen
      have hne : rest ≠ [] := by
        rintro rfl
        have hnil : byteLen [] = 0 := rfl
        omega
      exact ⟨htext, hread, (splitTwoBytes_eq_none_iff (by omega) hne).mp hnone⟩
    · rintro ⟨htext, hread, hcuts⟩
      have hbytes := byteLen_joined hread
      rw [htext, byteLen_append, hbytes] at hlen
      have hne : rest ≠ [] := by
        rintro rfl
        exact hcuts
      have hpos : byteLen rest ≠ 0 := fun h => hne (eq_nil_of_byteLen h)
      exact ⟨htext, by omega, hread, (splitTwoBytes_eq_none_iff (by omega) hne).mpr hcuts⟩
  · simp [hlen]

/-- Sixteen pairs that can be read are an id, -/
theorem parse_joined (name : String) (htext : s.toList = joined pairs) (hlen : pairs.length = 16)
    (hread : ∀ p ∈ pairs, ReadPair p) : ∃ i, parse name s = .ok i := by
  have hbytes : byteLen (joined pairs) = 32 := by
    rw [byteLen_joined hread, hlen]
  obtain ⟨bytes, hparsed⟩ := parseBytes_joined name hlen hread
  refine ⟨⟨bytes.1, bytes.2⟩, ?_⟩
  rw [parse, htext, if_pos hbytes, hparsed]
  rfl

/-- and an id that was read came from sixteen of them, a byte from each. -/
theorem pairs_of_parse {name : String} {i : HexId} (h : parse name s = .ok i) :
    ∃ pairs, s.toList = joined pairs ∧ pairs.length = 16 ∧ (∀ p ∈ pairs, ReadPair p)
      ∧ pairs.map (fun p => fromStrRadix16 [p.1, p.2]) = i.bytes.map some := by
  unfold parse at h
  split_ifs at h with hlen
  obtain ⟨bytes, hbytes, rfl⟩ := Parsed.map_eq_ok_iff.mp h
  obtain ⟨pairs, rest, htext, hcount, hread, hmap⟩ := pairs_of_parseBytes hbytes
  -- the pairs are all 32 bytes, nothing follows them
  rw [htext, byteLen_append, byteLen_joined hread, hcount] at hlen
  obtain rfl := eq_nil_of_byteLen (Nat.add_left_cancel hlen)
  rw [List.append_nil] at htext
  exact ⟨pairs, htext, hcount, hread, hmap⟩

theorem parse_of_isHexText (name : String) (h : IsHexText s) : ∃ i, parse name s = .ok i := by
  obtain ⟨pairs, htext, hlen, hread⟩ := pairs_of_digits (n := 16) h.1 h.2
  exact parse_joined name htext hlen hread

/-- A text that is not misread is read exactly, whatever the type's name. -/
theorem exactlyRead_of_not_misread (name : String)
    (h : ¬ (byteLen s.toList = 32 ∧ Misread s.toList)) : ExactlyRead display s (parse name s) := by
  have hunsigned : ∀ {i : HexId}, parse name s = .ok i → ∃ pairs, s.toList = joined pairs
      ∧ pairs.length = 16 ∧ (∀ p ∈ pairs, ReadPair p) ∧ (∀ p ∈ pairs, p.1 ≠ '+')
      ∧ pairs.map (fun p => fromStrRadix16 [p.1, p.2]) = i.bytes.map some := by
    intro i hi
    obtain ⟨pairs, htext, hlen, hread, hmap⟩ := pairs_of_parse hi
    refine ⟨pairs, htext, hlen, hread, ?_, hmap⟩
    intro p hp hplus
    have hbytes : byteLen s.toList = 32 := by rw [htext, byteLen_joined hread, hlen]
    exact h ⟨hbytes, .signed pairs htext hread ⟨p, hp, hplus⟩⟩
  refine ⟨?_, ⟨?_, parse_of_isHexText name⟩, ?_⟩
  · intro hpanics
    obtain ⟨hbytes, pairs, rest, htext, hread, hcuts⟩ := (parse_panicked_iff name s).mp hpanics
    exact h ⟨hbytes, .cut pairs rest htext hread hcuts⟩
  · rintro ⟨i, hi⟩
    obtain ⟨pairs, htext, hlen, hread, hsign, -⟩ := hunsigned hi
    rw [IsHexText, htext, length_joined, hlen]
    exact ⟨rfl, digits_of_pairs hread hsign⟩
  · intro i hi
    obtain ⟨pairs, htext, -, -, hsign, hmap⟩ := hunsigned hi
    rw [display, display_joined hmap hsign, ← htext, ← String.toList_map, String.ofList_toList]
    rfl

/-- A text of 32 bytes that is misread is not. -/
theorem not_misread_of_exactlyRead {name : String} (h : ExactlyRead display s (parse name s))
    (hbytes : byteLen s.toList = 32) : ¬ Misread s.toList := by
  rintro (⟨pairs, rest, htext, hread, hcuts⟩ | ⟨pairs, htext, hread, p, hp, hplus⟩)
  · exact h.returns ((parse_panicked_iff name s).mpr ⟨hbytes, pairs, rest, htext, hread, hcuts⟩)
  · have hlen : pairs.length = 16 := by
      rw [htext, byteLen_joined hread] at hbytes
      omega
    have hhex := h.accepted.mp (parse_joined name htext hlen hread)
    have hmem : p.1 ∈ s.toList := by
      rw [htext]
      exact List.mem_flatMap.mpr ⟨p, hp, List.mem_cons_self⟩
    exact (hhex.2 p.1 hmem).ne_plus hplus

theorem exactlyRead_iff (name s : String) :
    ExactlyRead display s (parse name s) ↔ ¬ (byteLen s.toList = 32 ∧ Misread s.toList) :=
  ⟨fun h ⟨hbytes, hmis⟩ => not_misread_of_exactlyRead h hbytes hmis,
    exactlyRead_of_not_misread name⟩

end HexId

/-- The two types wrap what was read and print what they wrap. -/
theorem exactlyRead_map_iff {α β : Type} {display : α → String} {wrap : α → β} {unwrap : β → α}
    (hwrap : ∀ a, unwrap (wrap a) = a) (s : String) (r : Parsed α) :
    ExactlyRead (fun b => display (unwrap b)) s (r.map wrap) ↔ ExactlyRead display s r := by
  cases r with
  | ok a =>
    constructor <;> rintro ⟨-, haccepted, hprinted⟩
    · refine ⟨nofun, by simpa [Parsed.map] using haccepted, ?_⟩
      rintro _ ⟨⟩
      have h := hprinted (wrap a) rfl
      rwa [hwrap] at h
    · refine ⟨nofun, by simpa [Parsed.map] using haccepted, ?_⟩
      rintro _ ⟨⟩
      rw [hwrap]
      exact hprinted a rfl
  | error msg =>
    constructor <;> rintro ⟨-, haccepted, -⟩ <;>
      exact ⟨nofun, by simpa [Parsed.map] using haccepted, nofun⟩
  | panicked =>
    constructor <;> rintro ⟨hreturns, -, -⟩ <;> exact absurd rfl hreturns

/-- **Ids are read exactly, the misread texts apart.** Every id is read back from what it
prints as. A text is read without a panic, accepted exactly when it is 32 hexadecimal
digits and printed back in lower case, unless it is 32 bytes long and, after pairs that
were read, two bytes end inside a character, or all of it was read and a pair had a sign. -/
theorem ids_exactly_read_iff (s : String) (tenant : TenantId) (timeline : TimelineId) :
    TenantId.parse tenant.id.display = .ok tenant
    ∧ TimelineId.parse timeline.id.display = .ok timeline
    ∧ (ExactlyRead (fun t : TenantId => t.id.display) s (TenantId.parse s)
        ↔ ¬ (byteLen s.toList = 32 ∧ Misread s.toList))
    ∧ (ExactlyRead (fun t : TimelineId => t.id.display) s (TimelineId.parse s)
        ↔ ¬ (byteLen s.toList = 32 ∧ Misread s.toList)) := by
  refine ⟨TenantId.parse_display tenant, TimelineId.parse_display timeline, ?_, ?_⟩
  · rw [TenantId.parse, exactlyRead_map_iff (fun _ => rfl), HexId.exactlyRead_iff]
  · rw [TimelineId.parse, exactlyRead_map_iff (fun _ => rfl), HexId.exactlyRead_iff]

/-- Sixteen signs with a digit each. -/
def signedText : String := String.ofList (joined (List.replicate 16 ('+', 'f')))

/-- Thirty-two bytes that are seventeen characters. -/
def accentedText : String := String.ofList ('a' :: List.replicate 15 'é' ++ ['a'])

/-- The signs are taken for zeros, and a slice inside an accented letter panics. -/
theorem signed_and_accented_texts_misread :
    TenantId.parse signedText = .ok ⟨HexId.ofByte 15⟩ ∧ ¬ IsHexText signedText
      ∧ (HexId.ofByte 15).display ≠ signedText.toLower
      ∧ TenantId.parse accentedText = .panicked := by
  have hsigned : TenantId.parse signedText = .ok ⟨HexId.ofByte 15⟩ := by
    unfold TenantId.parse HexId.parse signedText
    rw [String.toList_ofList]
    rfl
  have hplus : '+' ∈ signedText.toList := by
    rw [signedText, String.toList_ofList]
    exact List.mem_cons_self
  refine ⟨hsigned, ?_, ?_, ?_⟩
  · intro hhex
    exact (hhex.2 '+' hplus).ne_plus rfl
  · intro hprints
    have hlower : '+' ∈ signedText.toLower.toList := by
      rw [String.toLower, String.toList_map]
      exact List.mem_map_of_mem hplus
    rw [← hprints, HexId.display, String.toList_ofList] at hlower
    obtain ⟨b, hb, hlower⟩ := List.mem_flatMap.mp hlower
    rw [List.eq_of_mem_replicate hb] at hlower
    revert hlower
    decide
  · unfold TenantId.parse HexId.parse accentedText
    rw [String.toList_ofList]
    rfl

end AethelDB
