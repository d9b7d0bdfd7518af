import Mathlib

/-!
# Text

The functions of Rust's `str` and of the UTF-8 decoder that the program uses, on lists of
characters. They are structurally recursive, so that they can be evaluated; where Rust skips
several bytes or characters at once, a counter says how many of the next ones are skipped.
-/

namespace AethelDB.Text

/-! ## UTF-8 -/

variable {s : List Char} {bs : List UInt8}

def isContinuation (b : UInt8) : Bool := 0x80 ≤ b && b ≤ 0xBF

/-- Whether the second byte of a sequence may follow its first byte: overlong forms, surrogates
and what is beyond the last code point are excluded here. -/
def secondOk (first second : UInt8) : Bool :=
  if first = 0xE0 then 0xA0 ≤ second && second ≤ 0xBF
  else if first = 0xED then 0x80 ≤ second && second ≤ 0x9F
  else if first = 0xF0 then 0x90 ≤ second && second ≤ 0xBF
  else if first = 0xF4 then 0x80 ≤ second && second ≤ 0x8F
  else isContinuation second

def low6 (b : UInt8) : Nat := b.toNat % 64

/-- What the input begins with, and how many bytes that is: a character, or a sequence that is
not one. -/
def utf8Step : List UInt8 → Option Char × Nat
  | [] => (none, 1)
  | b :: rest =>
    if b < 0x80 then (some (Char.ofNat b.toNat), 1)
    else if 0xC2 ≤ b ∧ b ≤ 0xDF then
      match rest with
      | c :: _ =>
        if isContinuation c then (some (Char.ofNat (b.toNat % 32 * 64 + low6 c)), 2) else (none, 1)
      | [] => (none, 1)
    else if 0xE0 ≤ b ∧ b ≤ 0xEF then
      match rest with
      | c :: d :: _ =>
        if !secondOk b c then (none, 1)
        else if !isContinuation d then (none, 2)
        else (some (Char.ofNat ((b.toNat % 16 * 64 + low6 c) * 64 + low6 d)), 3)
      | [c] => if secondOk b c then (none, 2) else (none, 1)
      | [] => (none, 1)
    else if 0xF0 ≤ b ∧ b ≤ 0xF4 then
      match rest with
      | c :: d :: e :: _ =>
        if !secondOk b c then (none, 1)
        else if !isContinuation d then (none, 2)
        else if !isContinuation e then (none, 3)
        else (some (Char.ofNat (((b.toNat % 8 * 64 + low6 c) * 64 + low6 d) * 64 + low6 e)), 4)
      | [c, d] => if !secondOk b c then (none, 1) else if isContinuation d then (none, 3) else (none, 2)
      | [c] => if secondOk b c then (none, 2) else (none, 1)
      | [] => (none, 1)
    else (none, 1)

/-- The characters, and `none` for each sequence that is not one. -/
def utf8Go : Nat → List UInt8 → List (Option Char)
  | _, [] => []
  | skip + 1, _ :: bytes => utf8Go skip bytes
  | 0, b :: bytes =>
    let (c, n) := utf8Step (b :: bytes)
    c :: utf8Go (n - 1) bytes

/-- `String::from_utf8`. -/
def fromUtf8 (bytes : List UInt8) : Option (List Char) := (utf8Go 0 bytes).mapM id

/-- `String::from_utf8_lossy`. -/
def fromUtf8Lossy (bytes : List UInt8) : List Char := (utf8Go 0 bytes).map fun c => c.getD '�'

/-- `str::as_bytes`. -/
def utf8 (s : List Char) : List UInt8 := s.flatMap String.utf8EncodeChar

theorem isContinuation_iff {b : UInt8} :
    isContinuation b = true ↔ 128 ≤ b.toNat ∧ b.toNat ≤ 191 := by
  simp [isContinuation, UInt8.le_iff_toNat_le]

/-- The four first bytes that narrow down the second one, as bounds on numbers. -/
theorem secondOk_of {b c : UInt8} (hc : isContinuation c = true) (h0 : b.toNat = 224 → 160 ≤ c.toNat)
    (h1 : b.toNat = 237 → c.toNat ≤ 159) (h2 : b.toNat = 240 → 144 ≤ c.toNat)
    (h3 : b.toNat = 244 → c.toNat ≤ 143) : secondOk b c = true := by
  have hrange := isContinuation_iff.mp hc
  simp only [secondOk, ← UInt8.toNat_inj, UInt8.le_iff_toNat_le, UInt8.reduceToNat, hc]
  grind

section utf8Step

variable {b c d e : UInt8} {rest : List UInt8}

theorem utf8Step_one (h : b.toNat < 128) :
    utf8Step (b :: rest) = (some (Char.ofNat b.toNat), 1) := by
  simp only [utf8Step, UInt8.lt_iff_toNat_lt, UInt8.reduceToNat]
  rw [if_pos h]

theorem utf8Step_two (hb : 194 ≤ b.toNat ∧ b.toNat ≤ 223) (hc : isContinuation c = true) :
    utf8Step (b :: c :: rest) = (some (Char.ofNat (b.toNat % 32 * 64 + low6 c)), 2) := by
  simp only [utf8Step, UInt8.lt_iff_toNat_lt, UInt8.le_iff_toNat_le, UInt8.reduceToNat]
  rw [if_neg (by omega), if_pos hb, if_pos hc]

theorem utf8Step_three (hb : 224 ≤ b.toNat ∧ b.toNat ≤ 239) (hc : secondOk b c = true)
    (hd : isContinuation d = true) :
    utf8Step (b :: c :: d :: rest)
      = (some (Char.ofNat ((b.toNat % 16 * 64 + low6 c) * 64 + low6 d)), 3) := by
  simp only [utf8Step, UInt8.lt_iff_toNat_lt, UInt8.le_iff_toNat_le, UInt8.reduceToNat]
  rw [if_neg (by omega), if_neg (by omega), if_pos hb, if_neg (by simp [hc]), if_neg (by simp [hd])]

theorem utf8Step_four (hb : 240 ≤ b.toNat ∧ b.toNat ≤ 244) (hc : secondOk b c = true)
    (hd : isContinuation d = true) (he : isContinuation e = true) :
    utf8Step (b :: c :: d :: e :: rest)
      = (some (Char.ofNat (((b.toNat % 8 * 64 + low6 c) * 64 + low6 d) * 64 + low6 e)), 4) := by
  simp only [utf8Step, UInt8.lt_iff_toNat_lt, UInt8.le_iff_toNat_le, UInt8.reduceToNat]
  rw [if_neg (by omega), if_neg (by omega), if_neg (by omega), if_pos hb, if_neg (by simp [hc]),
    if_neg (by simp [hd]), if_neg (by simp [he])]

end utf8Step

theorem toNat_ofNat_byte {n : Nat} (h : n < 256) : (UInt8.ofNat n).toNat = n := by
  rw [UInt8.toNat_ofNat']
  omega

/-- What begins with the encoding of a character is read as that character. -/
theorem utf8Step_utf8EncodeChar (c : Char) (rest : List UInt8) :
    utf8Step (String.utf8EncodeChar c ++ rest) = (some c, (String.utf8EncodeChar c).length) := by
  obtain ⟨v, hv⟩ : ∃ v, c.val.toNat = v := ⟨_, rfl⟩
  have hvalid : v < 0xD800 ∨ 0xDFFF < v ∧ v < 0x110000 := hv ▸ c.valid
  have hchar : ∀ n, n = v → Char.ofNat n = c := by
    rintro n rfl
    rw [← hv]
    exact Char.ofNat_toNat c
  have hcont : ∀ n, isContinuation (UInt8.ofNat (n % 64 + 128)) = true := fun n =>
    isContinuation_iff.mpr (by rw [toNat_ofNat_byte (by omega)]; omega)
  have hlow : ∀ n, low6 (UInt8.ofNat (n % 64 + 128)) = n % 64 := fun n => by
    unfold low6
    rw [toNat_ofNat_byte (by omega)]
    omega
  unfold String.utf8EncodeChar
  simp only [hv]
  -- one to four bytes, by the size of the code point
  split
  · have hb := toNat_ofNat_byte (show v < 256 by omega)
    simp only [List.cons_append, List.nil_append, List.length_cons, List.length_nil]
    rw [utf8Step_one (by omega), hchar _ hb]
  · split
    · have hb := toNat_ofNat_byte (show v / 64 % 32 + 192 < 256 by omega)
      simp only [List.cons_append, List.nil_append, List.length_cons, List.length_nil]
      rw [utf8Step_two (by omega) (hcont v), hchar _ (by rw [hb, hlow]; omega)]
    · split
      · have hb := toNat_ofNat_byte (show v / 4096 % 16 + 224 < 256 by omega)
        have hc := toNat_ofNat_byte (show v / 64 % 64 + 128 < 256 by omega)
        simp only [List.cons_append, List.nil_append, List.length_cons, List.length_nil]
        rw [utf8Step_three (by omega)
          (secondOk_of (hcont _) (by omega) (by omega) (by omega) (by omega)) (hcont v),
          hchar _ (by rw [hb, hlow, hlow]; omega)]
      · have hb := toNat_ofNat_byte (show v / 262144 % 8 + 240 < 256 by omega)
        have hc := toNat_ofNat_byte (show v / 4096 % 64 + 128 < 256 by omega)
        simp only [List.cons_append, List.nil_append, List.length_cons, List.length_nil]
        rw [utf8Step_four (by omega)
          (secondOk_of (hcont _) (by omega) (by omega) (by omega) (by omega)) (hcont _) (hcont v),
          hchar _ (by rw [hb, hlow, hlow, hlow]; omega)]

theorem utf8Go_skip (bs rest : List UInt8) : utf8Go bs.length (bs ++ rest) = utf8Go 0 rest := by
  induction bs with
  | nil => rfl
  | cons b bs ih => exact ih

theorem utf8Go_utf8 (s : List Char) : utf8Go 0 (utf8 s) = s.map some := by
  induction s with
  | nil => rfl
  | cons c s ih =>
    have hsplit : utf8 (c :: s) = String.utf8EncodeChar c ++ utf8 s := rfl
    have hstep := utf8Step_utf8EncodeChar c (utf8 s)
    obtain ⟨b, bs, hbs⟩ : ∃ b bs, String.utf8EncodeChar c = b :: bs :=
      List.exists_cons_of_ne_nil (by simp)
    rw [hbs, List.cons_append] at hstep
    rw [hsplit, hbs, List.cons_append, utf8Go, hstep]
    simp only [List.length_cons, Nat.add_sub_cancel, List.map_cons]
    rw [utf8Go_skip, ih]

theorem fromUtf8_utf8 (s : List Char) : fromUtf8 (utf8 s) = some s := by
  unfold fromUtf8
  rw [utf8Go_utf8]
  induction s with
  | nil => rfl
  | cons c s ih => simp [ih]

theorem fromUtf8Lossy_utf8 (s : List Char) : fromUtf8Lossy (utf8 s) = s := by
  rw [fromUtf8Lossy, utf8Go_utf8, List.map_map]
  exact List.map_id s

/-! Conversely, only the encoding of a character is read as that character. -/

/-- The second bytes that a first byte allows are continuation bytes within its bounds. -/
theorem bounds_of_secondOk {b c : UInt8} (h : secondOk b c = true) :
    isContinuation c = true ∧ (b.toNat = 224 → 160 ≤ c.toNat) ∧ (b.toNat = 237 → c.toNat ≤ 159)
      ∧ (b.toNat = 240 → 144 ≤ c.toNat) ∧ (b.toNat = 244 → c.toNat ≤ 143) := by
  rw [isContinuation_iff]
  simp only [secondOk, ← UInt8.toNat_inj, UInt8.le_iff_toNat_le, UInt8.reduceToNat, isContinuation] at h
  grind

section utf8EncodeChar

variable {b c d e : UInt8}

theorem val_ofNat {v : Nat} (h : v < 0xD800 ∨ 0xDFFF < v ∧ v < 0x110000) :
    (Char.ofNat v).val.toNat = v := by
  have hnat := Char.toNat_ofNat v
  rwa [if_pos h] at hnat

theorem low6_of_isContinuation (h : isContinuation c = true) : low6 c + 128 = c.toNat ∧ low6 c < 64 := by
  have hrange := isContinuation_iff.mp h
  unfold low6
  omega

theorem utf8EncodeChar_one (hb : b.toNat < 128) : String.utf8EncodeChar (Char.ofNat b.toNat) = [b] := by
  have hval := val_ofNat (v := b.toNat) (.inl (by omega))
  unfold String.utf8EncodeChar
  simp only [hval]
  rw [if_pos (by omega), UInt8.ofNat_toNat]

theorem utf8EncodeChar_two (hb : 194 ≤ b.toNat ∧ b.toNat ≤ 223) (hc : isContinuation c = true) :
    String.utf8EncodeChar (Char.ofNat (b.toNat % 32 * 64 + low6 c)) = [b, c] := by
  have hlow := low6_of_isContinuation hc
  have hval := val_ofNat (v := b.toNat % 32 * 64 + low6 c) (.inl (by omega))
  have hfirst : (b.toNat % 32 * 64 + low6 c) / 64 % 32 + 192 = b.toNat := by omega
  have hsecond : (b.toNat % 32 * 64 + low6 c) % 64 + 128 = c.toNat := by omega
  unfold String.utf8EncodeChar
  simp only [hval]
  rw [if_neg (by omega), if_pos (by omega), hfirst, hsecond, UInt8.ofNat_toNat, UInt8.ofNat_toNat]

theorem utf8EncodeChar_three (hb : 224 ≤ b.toNat ∧ b.toNat ≤ 239) (hc : secondOk b c = true)
    (hd : isContinuation d = true) :
    String.utf8EncodeChar (Char.ofNat ((b.toNat % 16 * 64 + low6 c) * 64 + low6 d)) = [b, c, d] := by
  obtain ⟨hcont, hoverlong, hsurrogate, -⟩ := bounds_of_secondOk hc
  have hlow := low6_of_isContinuation hcont
  have hlow' := low6_of_isContinuation hd
  obtain ⟨v, hv⟩ : ∃ v, v = (b.toNat % 16 * 64 + low6 c) * 64 + low6 d := ⟨_, rfl⟩
  have hval := val_ofNat (v := v) (by omega)
  have hfirst : v / 4096 % 16 + 224 = b.toNat := by omega
  have hsecond : v / 64 % 64 + 128 = c.toNat := by omega
  have hthird : v % 64 + 128 = d.toNat := by omega
  rw [← hv]
  unfold String.utf8EncodeChar
  simp only [hval]
  rw [if_neg (by omega), if_neg (by omega), if_pos (by omega), hfirst, hsecond, hthird]
  simp only [UInt8.ofNat_toNat]

theorem utf8EncodeChar_four (hb : 240 ≤ b.toNat ∧ b.toNat ≤ 244) (hc : secondOk b c = true)
    (hd : isContinuation d = true) (he : isContinuation e = true) :
    String.utf8EncodeChar (Char.ofNat (((b.toNat % 8 * 64 + low6 c) * 64 + low6 d) * 64 + low6 e))
      = [b, c, d, e] := by
  obtain ⟨hcont, -, -, hoverlong, hbeyond⟩ := bounds_of_secondOk hc
  have hlow := low6_of_isContinuation hcont
  have hlow' := low6_of_isContinuation hd
  have hlow'' := low6_of_isContinuation he
  obtain ⟨v, hv⟩ : ∃ v, v = ((b.toNat % 8 * 64 + low6 c) * 64 + low6 d) * 64 + low6 e := ⟨_, rfl⟩
  have hval := val_ofNat (v := v) (by omega)
  have hfirst : v / 262144 % 8 + 240 = b.toNat := by omega
  have hsecond : v / 4096 % 64 + 128 = c.toNat := by omega
  have hthird : v / 64 % 64 + 128 = d.toNat := by omega
  have hfourth : v % 64 + 128 = e.toNat := by omega
  rw [← hv]
  unfold String.utf8EncodeChar
  simp only [hval]
  rw [if_neg (by omega), if_neg (by omega), if_neg (by omega), hfirst, hsecond, hthird, hfourth]
  simp only [UInt8.ofNat_toNat]

end utf8EncodeChar

theorem utf8Step_eq_some {c : Char} {n : Nat} (h : utf8Step bs = (some c, n)) :
    ∃ rest, bs = String.utf8EncodeChar c ++ rest ∧ n = (String.utf8EncodeChar c).length := by
  unfold utf8Step at h
  simp only [UInt8.lt_iff_toNat_lt, UInt8.le_iff_toNat_le, UInt8.reduceToNat, Bool.not_eq_true',
    ← Bool.not_eq_true] at h
  -- the branches that return no character close at once
  repeat' split at h
  all_goals cases h
  · next hb =>
    rw [utf8EncodeChar_one hb]
    exact ⟨_, rfl, rfl⟩
  · next hb _ _ _ hc =>
    rw [utf8EncodeChar_two hb hc]
    exact ⟨_, rfl, rfl⟩
  · next hb _ _ _ _ hc hd =>
    rw [utf8EncodeChar_three hb (not_not.mp hc) (not_not.mp hd)]
    exact ⟨_, rfl, rfl⟩
  · next hb _ _ _ _ _ hc hd he =>
    rw [utf8EncodeChar_four hb (not_not.mp hc) (not_not.mp hd) (not_not.mp he)]
    exact ⟨_, rfl, rfl⟩

theorem utf8_of_utf8Go (h : utf8Go 0 bs = s.map some) : bs = utf8 s := by
  induction s generalizing bs with
  | nil =>
    cases bs with
    | nil => rfl
    | cons b bs => simp [utf8Go] at h
  | cons c s ih =>
    cases bs with
    | nil => simp [utf8Go] at h
    | cons b bs =>
      obtain ⟨c', n, hstep⟩ : ∃ c' n, utf8Step (b :: bs) = (c', n) := ⟨_, _, rfl⟩
      rw [utf8Go, hstep, List.map_cons] at h
      obtain ⟨rfl, hrest⟩ := List.cons.inj h
      obtain ⟨rest, hsplit, hlen⟩ := utf8Step_eq_some hstep
      obtain ⟨b', bs', henc⟩ : ∃ b' bs', String.utf8EncodeChar c = b' :: bs' :=
        List.exists_cons_of_ne_nil (by simp)
      rw [henc] at hsplit hlen
      obtain ⟨rfl, rfl⟩ := List.cons.inj hsplit
      rw [hlen, List.length_cons, Nat.add_sub_cancel, List.append_eq, utf8Go_skip] at hrest
      rw [show utf8 (c :: s) = String.utf8EncodeChar c ++ utf8 s from rfl, henc, ← ih hrest]
      rfl

theorem eq_map_some_of_mapM {xs : List (Option Char)} (h : xs.mapM id = some s) :
    xs = s.map some := by
  induction xs generalizing s with
  | nil =>
    obtain rfl : [] = s := Option.some.inj h
    rfl
  | cons x xs ih =>
    rw [List.mapM_cons, Option.bind_eq_bind, Option.bind_eq_some_iff] at h
    obtain ⟨c, hc, h⟩ := h
    rw [Option.bind_eq_bind, Option.bind_eq_some_iff] at h
    obtain ⟨s', hs', h⟩ := h
    obtain rfl : c :: s' = s := Option.some.inj h
    rw [List.map_cons, ← ih hs', ← hc]
    rfl

/-- Only the bytes of a text are read as that text. -/
theorem fromUtf8_eq_some : fromUtf8 bs = some s ↔ bs = utf8 s :=
  ⟨fun h => utf8_of_utf8Go (eq_map_some_of_mapM h), fun h => h ▸ fromUtf8_utf8 s⟩

/-! ## Searching and splitting -/

variable {pattern : List Char}

/-- `char::is_whitespace`. -/
def isWhitespace (c : Char) : Bool :=
  let n := c.toNat
  9 ≤ n && n ≤ 13 || n == 0x20 || n == 0x85 || n == 0xA0 || n == 0x1680 || 0x2000 ≤ n && n ≤ 0x200A ||
    n == 0x2028 || n == 0x2029 || n == 0x202F || n == 0x205F || n == 0x3000

/-- `str::split_whitespace`. -/
def splitWhitespace (s : List Char) : List String :=
  ((s.splitOnP isWhitespace).filter fun w => !w.isEmpty).map String.ofList

/-- `str::trim`. -/
def trim (s : List Char) : List Char := (s.dropWhile isWhitespace).rdropWhile isWhitespace

/-- `str::split_once` with a character. -/
def splitOnce (sep : Char) (s : List Char) : Option (List Char × List Char) :=
  match s.dropWhile (· ≠ sep) with
  | [] => none
  | _ :: after => some (s.takeWhile (· ≠ sep), after)

/-- `str::rsplit_once`, for a pattern that is not empty: at its last occurrence. -/
def rsplitOnce (pattern : List Char) : List Char → Option (List Char × List Char)
  | [] => none
  | c :: cs =>
    match rsplitOnce pattern cs with
    | some (before, after) => some (c :: before, after)
    | none => if pattern.isPrefixOf (c :: cs) then some ([], (c :: cs).drop pattern.length) else none

theorem rsplitOnce_of_not_mem {c : Char} (h : c ∉ s) : rsplitOnce (c :: pattern) s = none := by
  induction s with
  | nil => rfl
  | cons x s ih =>
    obtain ⟨hx, hs⟩ := not_or.mp (mt List.mem_cons.mpr h)
    rw [rsplitOnce, ih hs]
    simp [hx]

/-- The last occurrence of a pattern is the one behind which its first character does not come
any more. -/
theorem rsplitOnce_append {c : Char} {after : List Char} (hpattern : c ∉ pattern)
    (hafter : c ∉ after) (before : List Char) :
    rsplitOnce (c :: pattern) (before ++ c :: (pattern ++ after)) = some (before, after) := by
  induction before with
  | nil =>
    have hrest : c ∉ pattern ++ after := by
      simp [hpattern, hafter]
    rw [List.nil_append, rsplitOnce, rsplitOnce_of_not_mem hrest]
    simp
  | cons x before ih => rw [List.cons_append, rsplitOnce, ih]

/-- `str::split("\r\n")`. -/
def splitCrlf : List Char → List (List Char)
  | [] => [[]]
  | '\r' :: '\n' :: cs => [] :: splitCrlf cs
  | c :: cs => (splitCrlf cs).modifyHead (c :: ·)

/-- `str::strip_prefix`. -/
def stripStart (start s : List Char) : Option (List Char) :=
  if start.isPrefixOf s then some (s.drop start.length) else none

/-- `str::eq_ignore_ascii_case`. -/
def eqIgnoreAsciiCase (a b : List Char) : Bool := a.map Char.toLower == b.map Char.toLower

/-- `replace` with the characters of the last occurrence that are still to be skipped. -/
def replaceGo (pattern new : List Char) : Nat → List Char → List Char
  | _, [] => []
  | skip + 1, _ :: cs => replaceGo pattern new skip cs
  | 0, c :: cs =>
    if pattern.isPrefixOf (c :: cs) then new ++ replaceGo pattern new (pattern.length - 1) cs
    else c :: replaceGo pattern new 0 cs

/-- `str::replace`, for a pattern that is not empty: every occurrence, from the left. -/
def replace (s pattern new : String) : String :=
  String.ofList (replaceGo pattern.toList new.toList 0 s.toList)

/-- `str::contains` with a character. -/
def contains (s : String) (c : Char) : Bool := s.toList.contains c

/-- `str::contains` with a text. -/
def containsText (pattern : List Char) : List Char → Bool
  | [] => pattern.isEmpty
  | c :: cs => pattern.isPrefixOf (c :: cs) || containsText pattern cs

theorem containsText_append (h : containsText pattern s = true) (rest : List Char) :
    containsText pattern (s ++ rest) = true := by
  induction s with
  | nil =>
    have hempty : pattern = [] := List.isEmpty_iff.mp h
    cases rest <;> simp [hempty, containsText]
  | cons c s ih =>
    rw [containsText, Bool.or_eq_true] at h
    rw [List.cons_append, containsText, Bool.or_eq_true]
    refine h.imp (fun hstart => ?_) ih
    rw [List.isPrefixOf_iff_prefix] at hstart ⊢
    exact hstart.trans (List.prefix_append (c :: s) rest)

/-- `str::to_lowercase` on ASCII letters; the other characters stay. -/
def toLowercase (s : List Char) : List Char := s.map Char.toLower

example : replace "compute-\x7btenant\x7d:5432" "\x7btenant\x7d" "shop" = "compute-shop:5432" := by
  decide

/-! ## Numbers -/

/-- The digits of `u64::from_str`. -/
def parseDigits : Nat → List Char → Option Nat
  | n, [] => some n
  | n, c :: cs => if '0' ≤ c ∧ c ≤ '9' then parseDigits (n * 10 + (c.toNat - 48)) cs else none

/-- `u64::from_str`. -/
def parseU64 (s : String) : Option UInt64 :=
  let digits := match s.toList with
    | '+' :: cs => cs
    | cs => cs
  if digits.isEmpty then none
  else (parseDigits 0 digits).bind fun n => if n < 2 ^ 64 then some (UInt64.ofNat n) else none

example : parseU64 "+42" = some 42 ∧ parseU64 "18446744073709551616" = none := by decide

/-- `u32::from_str`. -/
def parseU32 (s : List Char) : Option UInt32 :=
  let digits := if s.head? = some '+' then s.tail else s
  if digits.isEmpty then none
  else (parseDigits 0 digits).bind fun n => if n < 2 ^ 32 then some (UInt32.ofNat n) else none

/-- The digits of a number, as `format!` writes it. -/
def decimal (n : Nat) : List Char := Nat.toDigits 10 n

theorem parseDigits_append (m : Nat) (cs : List Char) (ds : List Char) :
    parseDigits m (cs ++ ds) = (parseDigits m cs).bind fun n => parseDigits n ds := by
  induction cs generalizing m with
  | nil => rfl
  | cons c cs ih =>
    simp only [List.cons_append, parseDigits]
    split
    · exact ih _
    · rfl

theorem parseDigits_digitChar (m : Nat) {d : Nat} (hd : d < 10) :
    parseDigits m [Nat.digitChar d] = some (m * 10 + d) := by
  interval_cases d <;> rfl

theorem parseDigits_decimal (n : Nat) : parseDigits 0 (decimal n) = some n := by
  induction n using Nat.strongRecOn with
  | _ n ih =>
    unfold decimal at ih ⊢
    by_cases hn : n < 10
    · rw [Nat.toDigits_of_lt_base hn, parseDigits_digitChar 0 hn]
      simp
    · rw [Nat.toDigits_of_base_le (by decide) (by omega), parseDigits_append, ih _ (by omega),
        Option.bind_some, parseDigits_digitChar _ (by omega)]
      congr 1
      omega

theorem parseU32_decimal (n : UInt32) : parseU32 (decimal n.toNat) = some n := by
  have hne : decimal n.toNat ≠ [] := Nat.toDigits_ne_nil
  have hplus : (decimal n.toNat).head? ≠ some '+' := by
    intro h
    have hdigit := Nat.isDigit_of_mem_toDigits (by decide) (by decide) (List.mem_of_mem_head? h)
    exact absurd hdigit (by decide)
  unfold parseU32
  simp only [if_neg hplus, List.isEmpty_iff, if_neg hne, parseDigits_decimal, Option.bind_some]
  rw [if_pos n.toNat_lt, UInt32.ofNat_toNat]

end AethelDB.Text
