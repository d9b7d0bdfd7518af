import AethelDB.Lib.Reader

/-!
# Numbers and fields on the wire

Unsigned numbers travel most significant byte first and in a fixed width; what does not fit the
width is cut off (`fromBeBytes_toBeBytes` is about what does). They are taken off a stream by the
readers `byte`, `u16`, `u32`, `u64`, and `exactly` takes a run of bytes.

Messages of a fixed layout are read by offset instead: `field buf o n` is the part of `n` bytes at
`o`. A message is written as its parts one after the other, and `field_flatten` says that the part
number `i` is found at the sum of the lengths before it.
-/

namespace AethelDB.Lib

universe u v

/-! ## Big-endian numbers -/

/-- `w` bytes of `n`, most significant first. -/
def toBeBytes : (w : Nat) → Nat → List UInt8
  | 0, _ => []
  | w + 1, n => UInt8.ofNat (n / 256 ^ w) :: toBeBytes w n

/-- The number that big-endian bytes spell. -/
def fromBeBytes (bytes : List UInt8) : Nat := bytes.foldl (fun n b => n * 256 + b.toNat) 0

@[simp] theorem length_toBeBytes (w n : Nat) : (toBeBytes w n).length = w := by
  induction w with
  | zero => rfl
  | succ w ih => rw [toBeBytes, List.length_cons, ih]

theorem foldl_toBeBytes (w n acc : Nat) :
    (toBeBytes w n).foldl (fun n b => n * 256 + b.toNat) acc = acc * 256 ^ w + n % 256 ^ w := by
  induction w generalizing acc with
  | zero => simp [toBeBytes, Nat.mod_one]
  | succ w ih =>
    have hbyte : (UInt8.ofNat (n / 256 ^ w)).toNat = n / 256 ^ w % 256 := UInt8.toNat_ofNat'
    have hsplit : n % 256 ^ (w + 1) = n % 256 ^ w + 256 ^ w * (n / 256 ^ w % 256) := by
      rw [Nat.pow_succ, Nat.mod_mul]
    rw [toBeBytes, List.foldl_cons, ih, hbyte, hsplit]
    ring

/-- What fits the width is read back. -/
theorem fromBeBytes_toBeBytes {w n : Nat} (h : n < 256 ^ w) : fromBeBytes (toBeBytes w n) = n := by
  unfold fromBeBytes
  rw [foldl_toBeBytes, Nat.zero_mul, Nat.zero_add, Nat.mod_eq_of_lt h]

/-- The high bytes come first. -/
theorem toBeBytes_append (w w' n : Nat) :
    toBeBytes (w + w') n = toBeBytes w (n / 256 ^ w') ++ toBeBytes w' n := by
  induction w with
  | zero => simp [toBeBytes]
  | succ w ih =>
    have hdiv : n / 256 ^ (w + w') = n / 256 ^ w' / 256 ^ w := by
      rw [Nat.div_div_eq_div_mul, Nat.add_comm, Nat.pow_add]
    rw [Nat.succ_add, toBeBytes, toBeBytes, ih, hdiv]
    rfl

/-- Only the low bytes count. -/
theorem toBeBytes_mod (w n : Nat) : toBeBytes w (n % 256 ^ w) = toBeBytes w n := by
  have hgen : ∀ k, k ≤ w → toBeBytes k (n % 256 ^ w) = toBeBytes k n := by
    intro k hk
    induction k with
    | zero => rfl
    | succ k ih =>
      have hdiv : n % 256 ^ w / 256 ^ k % 256 = n / 256 ^ k % 256 := by
        have hpow : 256 ^ w = 256 ^ k * 256 ^ (w - k) := by rw [← Nat.pow_add]; congr 1; omega
        have hrest : 256 ^ (w - k) = 256 * 256 ^ (w - k - 1) := by
          rw [← Nat.pow_succ']; congr 1; omega
        rw [hpow, Nat.mod_mul_right_div_self, hrest, Nat.mod_mul_right_mod]
      have hbyte : UInt8.ofNat (n % 256 ^ w / 256 ^ k) = UInt8.ofNat (n / 256 ^ k) := by
        apply UInt8.toNat_inj.mp
        rw [UInt8.toNat_ofNat', UInt8.toNat_ofNat']
        exact hdiv
      rw [toBeBytes, toBeBytes, ih (by omega), hbyte]
  exact hgen w le_rfl

theorem ofNat_fromBeBytes_u32 (v : UInt32) : UInt32.ofNat (fromBeBytes (toBeBytes 4 v.toNat)) = v := by
  rw [fromBeBytes_toBeBytes v.toNat_lt, UInt32.ofNat_toNat]

theorem ofNat_fromBeBytes_u64 (v : UInt64) : UInt64.ofNat (fromBeBytes (toBeBytes 8 v.toNat)) = v := by
  rw [fromBeBytes_toBeBytes v.toNat_lt, UInt64.ofNat_toNat]

/-! ## Taking them off a stream -/

namespace Reader

variable {β ε : Type}

/-- The next `n` elements, or the failure `e` if there are not that many. -/
def exactly (n : Nat) (e : ε) : Reader β ε (List β) := fun xs =>
  if n ≤ xs.length then .ok (xs.take n, xs.drop n) else .error e

/-- A number of `w` bytes. -/
def unsigned (w : Nat) (e : ε) : Reader UInt8 ε Nat := fromBeBytes <$> exactly w e

def byte (e : ε) : Reader UInt8 ε UInt8 := fun xs =>
  match xs with
  | [] => .error e
  | b :: rest => .ok (b, rest)

def u16 (e : ε) : Reader UInt8 ε UInt16 := UInt16.ofNat <$> unsigned 2 e

def u32 (e : ε) : Reader UInt8 ε UInt32 := UInt32.ofNat <$> unsigned 4 e

def u64 (e : ε) : Reader UInt8 ε UInt64 := UInt64.ofNat <$> unsigned 8 e

end Reader

section Takes

variable {β ε : Type}

theorem takes_exactly {xs : List β} {n : Nat} (h : xs.length = n) (e : ε) :
    Takes (Reader.exactly n e) xs xs := by
  intro rest
  subst h
  have hle : xs.length ≤ (xs ++ rest).length := by simp
  unfold Reader.exactly
  rw [if_pos hle, List.take_left, List.drop_left]

theorem takes_byte (b : UInt8) (e : ε) : Takes (Reader.byte e) [b] b := fun _ => rfl

theorem takes_unsigned {w n : Nat} (h : n < 256 ^ w) (e : ε) :
    Takes (Reader.unsigned w e) (toBeBytes w n) n := by
  have htake := (takes_exactly (length_toBeBytes w n) e).map fromBeBytes
  rwa [fromBeBytes_toBeBytes h] at htake

theorem takes_u16 (v : UInt16) (e : ε) : Takes (Reader.u16 e) (toBeBytes 2 v.toNat) v := by
  have htake := (takes_unsigned (w := 2) v.toNat_lt e).map UInt16.ofNat
  rwa [UInt16.ofNat_toNat] at htake

theorem takes_u32 (v : UInt32) (e : ε) : Takes (Reader.u32 e) (toBeBytes 4 v.toNat) v := by
  have htake := (takes_unsigned (w := 4) v.toNat_lt e).map UInt32.ofNat
  rwa [UInt32.ofNat_toNat] at htake

/-- A length that fits is the number read back. -/
theorem takes_u32_ofNat {n : Nat} (h : n < 2 ^ 32) (e : ε) :
    Takes (Reader.u32 e) (toBeBytes 4 n) (UInt32.ofNat n) := by
  have htake := takes_u32 (UInt32.ofNat n) e
  rwa [UInt32.toNat_ofNat_of_lt' h] at htake

theorem takes_u64 (v : UInt64) (e : ε) : Takes (Reader.u64 e) (toBeBytes 8 v.toNat) v := by
  have htake := (takes_unsigned (w := 8) v.toNat_lt e).map UInt64.ofNat
  rwa [UInt64.ofNat_toNat] at htake

end Takes

section Steady

variable {β ε : Type}

theorem steady_exactly (n : Nat) (e : ε) : Steady (Reader.exactly n e : Reader β ε (List β)) := by
  intro xs rest a h more
  unfold Reader.exactly at h ⊢
  by_cases hn : n ≤ xs.length
  · rw [if_pos hn] at h
    obtain ⟨rfl, rfl⟩ := Prod.mk.inj (Except.ok.inj h)
    have hmore : n ≤ (xs ++ more).length := by
      rw [List.length_append]
      omega
    rw [if_pos hmore, List.take_append_of_le_length hn, List.drop_append_of_le_length hn]
  · rw [if_neg hn] at h
    simp at h

theorem steady_byte (e : ε) : Steady (Reader.byte e) := by
  intro xs rest a h more
  cases xs with
  | nil => simp [Reader.byte] at h
  | cons b xs =>
    obtain ⟨rfl, rfl⟩ := Prod.mk.inj (Except.ok.inj h)
    rfl

theorem steady_u16 (e : ε) : Steady (Reader.u16 e) := ((steady_exactly 2 e).map _).map _

theorem steady_u32 (e : ε) : Steady (Reader.u32 e) := ((steady_exactly 4 e).map _).map _

theorem steady_u64 (e : ε) : Steady (Reader.u64 e) := ((steady_exactly 8 e).map _).map _

end Steady

section Fails

variable {β ε : Type} {Q : ε → Prop} {e : ε}

theorem fails_exactly (n : Nat) (h : Q e) : Fails (Reader.exactly n e : Reader β ε (List β)) Q := by
  intro xs e' he
  unfold Reader.exactly at he
  split at he
  · cases he
  · rwa [← Except.error.inj he]

theorem fails_u32 (h : Q e) : Fails (Reader.u32 e) Q := ((fails_exactly 4 h).map _).map _

end Fails

/-! ## Fixed layouts -/

section Field

variable {β : Type u}

/-- The `n` elements at offset `o`. -/
def field (buf : List β) (o n : Nat) : List β := (buf.drop o).take n

theorem field_append {pre part post : List β} {o n : Nat} (ho : pre.length = o) (hn : part.length = n) :
    field (pre ++ (part ++ post)) o n = part := by
  subst ho hn
  rw [field, List.drop_left, List.take_left]

/-- The last part. -/
theorem field_append_right {pre part : List β} {o n : Nat} (ho : pre.length = o) (hn : part.length = n) :
    field (pre ++ part) o n = part := by
  subst ho hn
  rw [field, List.drop_left, List.take_length]

/-- The part number `i` of a message written as its parts. -/
theorem field_flatten {parts : List (List β)} {i : Nat} {part : List β} (hi : parts[i]? = some part)
    (rest : List β) :
    field (parts.flatten ++ rest) ((parts.take i).map List.length).sum part.length = part := by
  obtain ⟨hlt, hpart⟩ := List.getElem?_eq_some_iff.mp hi
  have hsplit : parts.flatten = (parts.take i).flatten ++ (part ++ (parts.drop (i + 1)).flatten) := by
    rw [← hpart, ← List.flatten_cons, ← List.drop_eq_getElem_cons hlt, ← List.flatten_append,
      List.take_append_drop]
  rw [hsplit, List.append_assoc, List.append_assoc]
  exact field_append (by rw [List.length_flatten]) rfl

/-- `field_flatten` for a buffer that begins with the message, with the offset and the width as they
stand in the program. -/
theorem field_part {buf : List β} {parts : List (List β)} {i o n : Nat} {part : List β}
    (hbuf : parts.flatten <+: buf) (hi : parts[i]? = some part)
    (ho : ((parts.take i).map List.length).sum = o) (hn : part.length = n) : field buf o n = part := by
  obtain ⟨rest, rfl⟩ := hbuf
  rw [← ho, ← hn]
  exact field_flatten hi rest

theorem field_drop (buf : List β) (k o n : Nat) : field (buf.drop k) o n = field buf (k + o) n := by
  rw [field, field, List.drop_drop]

/-- A part of one element, by its index. -/
theorem getD_part {buf : List β} {parts : List (List β)} {i o : Nat} {b : β}
    (hbuf : parts.flatten <+: buf) (hi : parts[i]? = some [b])
    (ho : ((parts.take i).map List.length).sum = o) (d : β) : buf.getD o d = b := by
  have hfield := field_part (n := 1) hbuf hi ho rfl
  have hget : (field buf o 1)[0]? = some b := by rw [hfield]; rfl
  rw [field, List.getElem?_take_of_lt Nat.one_pos, List.getElem?_drop, Nat.add_zero] at hget
  rw [List.getD_eq_getElem?_getD, hget]
  rfl

/-- The 32-bit number at an offset. -/
def getU32 (buf : List UInt8) (o : Nat) : UInt32 := UInt32.ofNat (fromBeBytes (field buf o 4))

/-- The 64-bit number at an offset. -/
def getU64 (buf : List UInt8) (o : Nat) : UInt64 := UInt64.ofNat (fromBeBytes (field buf o 8))

theorem getU32_drop (buf : List UInt8) (k o : Nat) : getU32 (buf.drop k) o = getU32 buf (k + o) := by
  rw [getU32, field_drop, getU32]

theorem getU64_drop (buf : List UInt8) (k o : Nat) : getU64 (buf.drop k) o = getU64 buf (k + o) := by
  rw [getU64, field_drop, getU64]

variable {buf : List UInt8} {parts : List (List UInt8)} {i o : Nat}

theorem getU32_part {v : UInt32} (hbuf : parts.flatten <+: buf)
    (hi : parts[i]? = some (toBeBytes 4 v.toNat)) (ho : ((parts.take i).map List.length).sum = o) :
    getU32 buf o = v := by
  rw [getU32, field_part hbuf hi ho (length_toBeBytes ..), ofNat_fromBeBytes_u32]

theorem getU64_part {v : UInt64} (hbuf : parts.flatten <+: buf)
    (hi : parts[i]? = some (toBeBytes 8 v.toNat)) (ho : ((parts.take i).map List.length).sum = o) :
    getU64 buf o = v := by
  rw [getU64, field_part hbuf hi ho (length_toBeBytes ..), ofNat_fromBeBytes_u64]

/-- A length that fits is the number at its offset. -/
theorem toNat_getU32_part {n : Nat} (hn : n < 2 ^ 32) (hbuf : parts.flatten <+: buf)
    (hi : parts[i]? = some (toBeBytes 4 n)) (ho : ((parts.take i).map List.length).sum = o) :
    (getU32 buf o).toNat = n := by
  have hcount : (UInt32.ofNat n).toNat = n := UInt32.toNat_ofNat_of_lt' hn
  rw [← hcount] at hi
  rw [getU32_part hbuf hi ho, hcount]

end Field

/-! ## Streams of messages -/

/-- Where a stream is cut, there are whole messages and the beginning of the next one. -/
theorem exists_whole_messages {α : Type u} {β : Type v} {enc : α → List β} {items : List α}
    {front more : List β} (h : items.flatMap enc = front ++ more) :
    ∃ whole later part, items = whole ++ later ∧ front = whole.flatMap enc ++ part
      ∧ (later = [] ∧ part = []
        ∨ ∃ a rest missing, later = a :: rest ∧ missing ≠ [] ∧ enc a = part ++ missing) := by
  induction items generalizing front with
  | nil =>
    obtain ⟨rfl, -⟩ := List.append_eq_nil_iff.mp h.symm
    exact ⟨[], [], [], rfl, rfl, .inl ⟨rfl, rfl⟩⟩
  | cons a items ih =>
    -- the cut is behind the first message, or in it
    have hbehind : ∀ later, front = enc a ++ later → items.flatMap enc = later ++ more →
        ∃ whole rest part, a :: items = whole ++ rest ∧ front = whole.flatMap enc ++ part
          ∧ (rest = [] ∧ part = []
            ∨ ∃ b rest' missing, rest = b :: rest' ∧ missing ≠ [] ∧ enc b = part ++ missing) := by
      intro later hfront hlater
      obtain ⟨whole, rest, part, rfl, rfl, hcut⟩ := ih hlater
      exact ⟨a :: whole, rest, part, rfl, by rw [hfront, List.flatMap_cons, List.append_assoc], hcut⟩
    rw [List.flatMap_cons] at h
    rcases List.append_eq_append_iff.mp h with ⟨later, hfront, hlater⟩ | ⟨missing, henc, hmore⟩
    · exact hbehind later hfront hlater
    · by_cases hmissing : missing = []
      · subst hmissing
        exact hbehind [] (by rw [List.append_nil, henc, List.append_nil]) hmore.symm
      · exact ⟨[], a :: items, front, rfl, rfl, .inr ⟨a, items, missing, rfl, hmissing, henc⟩⟩

end AethelDB.Lib
