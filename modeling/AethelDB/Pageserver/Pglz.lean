import AethelDB.Pageserver.IngestSafety

/-!
# The `pglz` decompressor inverts its format

A `pglz` stream is a sequence of tokens, each a literal byte or a *match*: "`len`
bytes from `off` back". Tokens come in groups of up to eight under a control byte,
whose bits say, least significant first, which of them are matches. A match takes
two bytes, the low half of the first being `len - 3`; from length 18 on that half
is full and a third byte has the rest.

What a token list stands for is `expand`, in terms of the output alone: a match
repeats the last `off` bytes of the output, over and over where it is longer than
that. `pglzCopy` gets there byte by byte, reading what it has just written
(`pglzCopy_eq`). The decoder is then followed token by token through a group
(`pglzTokens_group`) and group by group through the stream (`pglzLoop_encode`),
and along the same path for a stream that is cut off: it either runs into the cut
inside a match and fails, or stops short of the output (`pglzLoop_cut`).
-/

namespace AethelDB.Pageserver

open AethelDB.Lib

/-- A back-reference the format can express. -/
structure PglzMatch where
  len : Nat
  off : Nat
  three_le_len : 3 ≤ len
  len_le : len ≤ 273
  off_pos : 1 ≤ off
  off_le : off ≤ 4095

inductive PglzToken where
  | literal (b : UInt8)
  | copy (m : PglzMatch)

namespace PglzToken

/-! ## What tokens stand for -/

/-- The last `off` bytes of the output, repeated to `len` bytes. -/
def repeatLast (off len : Nat) (out : List UInt8) : List UInt8 :=
  (List.range len).map fun i => (out.drop (out.length - off)).getD (i % off) 0

def expandOne (out : List UInt8) : PglzToken → List UInt8
  | .literal b => out ++ [b]
  | .copy m => out ++ repeatLast m.off m.len out

def expand (ts : List PglzToken) (out : List UInt8) : List UInt8 := ts.foldl expandOne out

def size : PglzToken → Nat
  | .literal _ => 1
  | .copy m => m.len

/-- No match reaches back further than the output, which has `n` bytes before. -/
def Fits : Nat → List PglzToken → Prop
  | _, [] => True
  | n, .literal _ :: ts => Fits (n + 1) ts
  | n, .copy m :: ts => m.off ≤ n ∧ Fits (n + m.len) ts

/-! ## How they are encoded -/

def bytes : PglzToken → List UInt8
  | .literal b => [b]
  | .copy m =>
    if m.len < 18 then [UInt8.ofNat (m.off / 256 * 16 + (m.len - 3)), UInt8.ofNat m.off]
    else [UInt8.ofNat (m.off / 256 * 16 + 15), UInt8.ofNat m.off, UInt8.ofNat (m.len - 18)]

def isCopy : PglzToken → Bool
  | .literal _ => false
  | .copy _ => true

/-- The control bits of a group, the first token in the least significant one;
`spare` fills those that no token uses. -/
def controlBits (spare : Nat) : List PglzToken → Nat
  | [] => spare
  | t :: ts => t.isCopy.toNat + 2 * controlBits spare ts

/-- One group: its control byte and its tokens. -/
def encodeGroup (spare : Nat) (group : List PglzToken) : List UInt8 :=
  UInt8.ofNat (controlBits spare group) :: group.flatMap bytes

/-- Groups of eight, the last one of what is left. -/
def encodeGroups (spare : Nat) : Nat → List PglzToken → List UInt8
  | 0, _ => []
  | _ + 1, [] => []
  | n + 1, t :: ts =>
    encodeGroup spare ((t :: ts).take 8) ++ encodeGroups spare n ((t :: ts).drop 8)

def encode (spare : Nat) (ts : List PglzToken) : List UInt8 := encodeGroups spare ts.length ts

/-! ## Expansion -/

@[simp] theorem length_repeatLast (off len : Nat) (out : List UInt8) :
    (repeatLast off len out).length = len := by
  simp [repeatLast]

@[simp] theorem expand_cons (t : PglzToken) (ts : List PglzToken) (out : List UInt8) :
    expand (t :: ts) out = expand ts (expandOne out t) := rfl

theorem expand_append (ts us : List PglzToken) (out : List UInt8) :
    expand (ts ++ us) out = expand us (expand ts out) :=
  List.foldl_append

theorem length_expandOne (out : List UInt8) (t : PglzToken) :
    (expandOne out t).length = out.length + t.size := by
  cases t <;> simp [expandOne, size]

theorem size_pos (t : PglzToken) : 0 < t.size := by
  cases t with
  | literal b => exact Nat.one_pos
  | copy m => exact Nat.lt_of_lt_of_le (by decide) m.three_le_len

/-- Tokens only add output, and each at least one byte. -/
theorem length_add_le_expand (ts : List PglzToken) (out : List UInt8) :
    out.length + ts.length ≤ (expand ts out).length := by
  induction ts generalizing out with
  | nil => exact Nat.le_refl _
  | cons t ts ih =>
    have hrest := ih (expandOne out t)
    have hpos := t.size_pos
    rw [length_expandOne] at hrest
    rw [expand_cons, List.length_cons]
    omega

theorem fits_append {n : Nat} {ts us : List PglzToken} (h : Fits n (ts ++ us)) {out : List UInt8}
    (hn : out.length = n) : Fits n ts ∧ Fits (expand ts out).length us := by
  induction ts generalizing n out with
  | nil =>
    subst hn
    exact ⟨trivial, h⟩
  | cons t ts ih =>
    have hlen := length_expandOne out t
    cases t with
    | literal b => exact ih h (by rw [hlen, hn]; rfl)
    | copy m =>
      obtain ⟨hrest, hus⟩ := ih h.2 (show (expandOne out (.copy m)).length = _ by rw [hlen, hn]; rfl)
      exact ⟨⟨h.1, hrest⟩, hus⟩

end PglzToken

open PglzToken

/-! ## One match -/

variable {dstLen : Nat}

/-- **Overlapping copies.** Copying byte by byte from `off` back repeats the last
`off` bytes: from byte `off` on it reads what it has written itself. -/
theorem pglzCopy_eq {off : Nat} {out : List UInt8} (hoff : 1 ≤ off) (hle : off ≤ out.length) :
    ∀ {len : Nat}, out.length + len ≤ dstLen →
      pglzCopy dstLen off len out = out ++ repeatLast off len out := by
  have hwindow : (out.drop (out.length - off)).length = off := by
    rw [List.length_drop]
    omega
  -- after `k` bytes, the next one read is byte `k` of the repetition
  have hbyte : ∀ k, ((out ++ repeatLast off k out)[(out ++ repeatLast off k out).length - off]?).getD 0
      = (out.drop (out.length - off)).getD (k % off) 0 := by
    intro k
    rw [List.length_append, length_repeatLast]
    rcases Nat.lt_or_ge k off with hlt | hge
    · rw [List.getElem?_append_left (by omega), Nat.mod_eq_of_lt hlt, List.getD_eq_getElem?_getD,
        List.getElem?_drop]
      congr 2
      omega
    · rw [List.getElem?_append_right (by omega), repeatLast, List.getElem?_map,
        List.getElem?_range (by omega), Option.map_some, Option.getD_some, Nat.mod_eq_sub_mod hge]
      congr 2
      omega
  have hrun : ∀ len k, out.length + k + len ≤ dstLen →
      pglzCopy dstLen off len (out ++ repeatLast off k out) = out ++ repeatLast off (k + len) out := by
    intro len
    induction len with
    | zero => intro k _; rfl
    | succ len ih =>
      intro k hroom
      have hnext : out ++ repeatLast off k out
          ++ [((out ++ repeatLast off k out)[(out ++ repeatLast off k out).length - off]?).getD 0]
          = out ++ repeatLast off (k + 1) out := by
        rw [hbyte, List.append_assoc]
        congr 1
        rw [repeatLast, repeatLast, List.range_succ, List.map_append]
        rfl
      rw [pglzCopy, if_neg (by simp; omega), hnext, ih (k + 1) (by omega)]
      congr 2
      omega
  intro len hroom
  have h := hrun len 0 (by omega)
  rwa [Nat.zero_add, show repeatLast off 0 out = [] from rfl, List.append_nil] at h

theorem toNat_and_low (n : Nat) : (UInt8.ofNat n &&& 0x0f).toNat = n % 16 := by
  rw [UInt8.toNat_and, UInt8.toNat_ofNat']
  show n % 256 &&& (2 ^ 4 - 1) = n % 16
  rw [Nat.and_two_pow_sub_one_eq_mod]
  omega

theorem toNat_and_high {n : Nat} (h : n < 256) : (UInt8.ofNat n &&& 0xf0).toNat = n / 16 * 16 := by
  have hall : ∀ k : Fin 256, (UInt8.ofNat k &&& 0xf0).toNat = k / 16 * 16 := by
    decide +kernel
  exact hall ⟨n, h⟩

theorem pglzReference_bytes (m : PglzMatch) (rest : List UInt8) :
    pglzReference ((PglzToken.copy m).bytes ++ rest) = .ok ((m.len, m.off), rest) := by
  obtain ⟨len, off, h3, hlen, h1, hoff⟩ := m
  have hbyte : (UInt8.ofNat off).toNat = off % 256 := UInt8.toNat_ofNat'
  by_cases hshort : len < 18
  · simp only [bytes, if_pos hshort, List.cons_append, List.nil_append, pglzReference]
    rw [toNat_and_low, toNat_and_high (by omega), hbyte, if_pos (by omega)]
    congr 3 <;> omega
  · have hextra : (UInt8.ofNat (len - 18)).toNat = len - 18 := by
      rw [UInt8.toNat_ofNat']
      omega
    simp only [bytes, if_neg hshort, List.cons_append, List.nil_append, pglzReference]
    rw [toNat_and_low, toNat_and_high (by omega), hbyte, hextra, if_neg (by omega)]
    congr 3 <;> omega

theorem pglzReference_cut (m : PglzMatch) {src : List UInt8}
    (hcut : src <+: (PglzToken.copy m).bytes) (hlt : src.length < (PglzToken.copy m).bytes.length) :
    pglzReference src = .error (.decompress .pglz) := by
  match src with
  | [] => rfl
  | [_] => rfl
  | b :: b' :: src =>
    simp only [bytes] at hcut hlt
    split at hcut
    · next hshort =>
      rw [if_pos hshort] at hlt
      simp at hlt
    · next hlong =>
      rw [if_neg hlong] at hlt
      have hnil : src = [] := List.length_eq_zero_iff.mp (by simp at hlt; omega)
      obtain ⟨rfl, -⟩ := List.cons_prefix_cons.mp hcut
      rw [hnil]
      simp only [pglzReference]
      rw [toNat_and_low, if_neg (by omega)]

/-! ## One group -/

theorem testBit_controlBits (spare : Nat) :
    ∀ (group : List PglzToken) (i : Nat) (h : i < group.length),
      (controlBits spare group).testBit i = (group[i]).isCopy := by
  intro group
  induction group with
  | nil => exact fun i h => absurd h (Nat.not_lt_zero i)
  | cons t group ih =>
    intro i h
    have hbit : t.isCopy.toNat < 2 := by cases t.isCopy <;> decide
    cases i with
    | zero =>
      rw [controlBits, Nat.testBit_zero, List.getElem_cons_zero]
      cases t.isCopy <;> simp
    | succ i =>
      rw [controlBits, Nat.testBit_succ, List.getElem_cons_succ, ← ih i (Nat.lt_of_succ_lt_succ h)]
      congr 1
      omega

/-- The test of the source on one control bit. -/
theorem control_test {n i : Nat} (hi : i < 8) :
    (UInt8.ofNat n >>> UInt8.ofNat i) &&& 1 = 0 ↔ n.testBit i = false := by
  have hshift : (UInt8.ofNat i).toNat % 8 = i := by
    rw [UInt8.toNat_ofNat']
    omega
  rw [← UInt8.toNat_inj, UInt8.toNat_and, UInt8.toNat_shiftRight, hshift, UInt8.toNat_ofNat']
  show (n % 2 ^ 8) >>> i &&& (2 ^ 1 - 1) = 0 ↔ _
  rw [Nat.and_two_pow_sub_one_eq_mod]
  have hmod : (n % 2 ^ 8).testBit i = n.testBit i := by
    rw [Nat.testBit_mod_two_pow, decide_eq_true hi, Bool.true_and]
  rw [← hmod, Nat.testBit_eq_decide_div_mod_eq, decide_eq_false_iff_not, Nat.shiftRight_eq_div_pow]
  omega

/-- The bits that the decoder tests for a group, in its order, are those of its
tokens. -/
theorem control_matches (spare : Nat) (group : List PglzToken) :
    ∀ p ∈ ([0, 1, 2, 3, 4, 5, 6, 7] : List UInt8).zip group,
      (UInt8.ofNat (controlBits spare group) >>> p.1) &&& 1 = 0 ↔ p.2.isCopy = false := by
  intro p hp
  obtain ⟨i, hi, rfl⟩ := List.getElem_of_mem hp
  rw [List.length_zip, Nat.lt_min] at hi
  have hbit : ([0, 1, 2, 3, 4, 5, 6, 7] : List UInt8)[i] = UInt8.ofNat i := by
    have hall : ∀ k : Fin 8, ([0, 1, 2, 3, 4, 5, 6, 7] : List UInt8)[k] = UInt8.ofNat k := by decide
    exact hall ⟨i, hi.1⟩
  rw [List.getElem_zip]
  dsimp only
  rw [hbit, control_test hi.1, testBit_controlBits spare group i hi.2]

/-- Where a cut falls in two stretches of bytes. -/
theorem cut_append {src a b : List UInt8} (hcut : src <+: a ++ b) (hne : src ≠ a ++ b) :
    (src <+: a ∧ src.length < a.length) ∨ ∃ rest, src = a ++ rest ∧ rest <+: b ∧ rest ≠ b := by
  rcases Nat.lt_or_ge src.length a.length with hlt | hge
  · exact Or.inl ⟨List.prefix_of_prefix_length_le hcut (List.prefix_append _ _) hlt.le, hlt⟩
  · obtain ⟨rest, rfl⟩ := List.prefix_of_prefix_length_le (List.prefix_append a b) hcut hge
    refine Or.inr ⟨rest, rfl, (List.prefix_append_right_inj _).mp hcut, fun h => hne ?_⟩
    rw [h]

section Group

variable {dstLen : Nat} {ctrl : UInt8}

theorem pglzTokens_token {bit : UInt8} {t : PglzToken} {dst : List UInt8}
    (hbit : (ctrl >>> bit) &&& 1 = 0 ↔ t.isCopy = false) (hfits : Fits dst.length [t])
    (hroom : dst.length + t.size ≤ dstLen) (bits rest : List UInt8) :
    pglzTokens dstLen ctrl (bit :: bits) (t.bytes ++ rest) dst
      = pglzTokens dstLen ctrl bits rest (expandOne dst t) := by
  have hpos := t.size_pos
  cases t with
  | literal b =>
    refine (if_neg (by omega)).trans ?_
    exact if_pos (hbit.mpr rfl)
  | copy m =>
    have hoff : ¬ (m.off = 0 ∨ dst.length < m.off) := by
      have hle := hfits.1
      have hone := m.off_pos
      omega
    have hne : (PglzToken.copy m).bytes ++ rest ≠ [] := by
      simp only [bytes]
      split <;> exact List.cons_ne_nil _ _
    rw [pglzTokens_reference bits (by omega) hne fun h => absurd (hbit.mp h) (by simp [isCopy]),
      pglzReference_bytes]
    simp only [Except.bind, if_neg hoff]
    exact congrArg _ (pglzCopy_eq m.off_pos hfits.1 hroom)

theorem pglzTokens_inside {bit : UInt8} {t : PglzToken} {dst src : List UInt8}
    (hbit : (ctrl >>> bit) &&& 1 = 0 ↔ t.isCopy = false) (bits : List UInt8)
    (hroom : dst.length < dstLen) (hcut : src <+: t.bytes) (hlt : src.length < t.bytes.length) :
    pglzTokens dstLen ctrl (bit :: bits) src dst = .error (.decompress .pglz) ∨
      pglzTokens dstLen ctrl (bit :: bits) src dst = .ok ([], dst) := by
  rcases eq_or_ne src [] with rfl | hne
  · exact Or.inr (if_neg (Nat.not_le.mpr hroom))
  · cases t with
    | literal b =>
      exact absurd (List.length_eq_zero_iff.mp (Nat.lt_one_iff.mp hlt)) hne
    | copy m =>
      left
      rw [pglzTokens_reference bits hroom hne fun h => absurd (hbit.mp h) (by simp [isCopy]),
        pglzReference_cut m hcut hlt]
      rfl

/-- **A group.** The decoder expands its tokens and stops at their end: because it has
tested all its bits, or because the output is complete. -/
theorem pglzTokens_group (rest : List UInt8) :
    ∀ {group : List PglzToken} {bits dst : List UInt8},
      (∀ p ∈ bits.zip group, (ctrl >>> p.1) &&& 1 = 0 ↔ p.2.isCopy = false) →
      Fits dst.length group → (expand group dst).length ≤ dstLen → group.length ≤ bits.length →
      (bits.length = group.length ∨ (expand group dst).length = dstLen) →
      pglzTokens dstLen ctrl bits (group.flatMap bytes ++ rest) dst
        = .ok (rest, expand group dst) := by
  intro group
  induction group with
  | nil =>
    intro bits dst _ _ _ _ hend
    cases bits with
    | nil => rfl
    | cons bit bits =>
      have hfull : dstLen ≤ dst.length := by
        rcases hend with h | h
        · exact absurd h (Nat.succ_ne_zero _)
        · exact h.ge
      exact if_pos hfull
  | cons t group ih =>
    intro bits dst hctrl hfits hroom hlen hend
    cases bits with
    | nil => exact absurd hlen (Nat.not_succ_le_zero _)
    | cons bit bits =>
      have hgrow := length_add_le_expand group (expandOne dst t)
      rw [length_expandOne] at hgrow
      have hone := fits_append (show Fits dst.length ([t] ++ group) from hfits) rfl
      rw [List.flatMap_cons, List.append_assoc,
        pglzTokens_token (t := t) (hctrl (bit, t) List.mem_cons_self) hone.1
          (by rw [expand_cons] at hroom; omega)]
      refine ih (fun p hp => hctrl p (List.mem_cons_of_mem _ hp)) hone.2 hroom
        (Nat.le_of_succ_le_succ hlen) ?_
      exact hend.imp_left Nat.succ.inj

/-- **A group that is cut off.** The decoder fails inside a match or returns less than
the group stands for. -/
theorem pglzTokens_cut :
    ∀ {group : List PglzToken} {bits dst src : List UInt8},
      (∀ p ∈ bits.zip group, (ctrl >>> p.1) &&& 1 = 0 ↔ p.2.isCopy = false) →
      Fits dst.length group → (expand group dst).length ≤ dstLen → group.length ≤ bits.length →
      src <+: group.flatMap bytes → src ≠ group.flatMap bytes →
      (∃ e, pglzTokens dstLen ctrl bits src dst = .error e) ∨
        ∃ out, pglzTokens dstLen ctrl bits src dst = .ok ([], out) ∧
          out.length < (expand group dst).length := by
  intro group
  induction group with
  | nil =>
    intro bits dst src _ _ _ _ hcut hne
    exact absurd (List.prefix_nil.mp hcut) hne
  | cons t group ih =>
    intro bits dst src hctrl hfits hroom hlen hcut hne
    cases bits with
    | nil => exact absurd hlen (Nat.not_succ_le_zero _)
    | cons bit bits =>
      have hgrow := length_add_le_expand group (expandOne dst t)
      have hpos := t.size_pos
      rw [length_expandOne] at hgrow
      rw [expand_cons] at hroom ⊢
      have hone := fits_append (show Fits dst.length ([t] ++ group) from hfits) rfl
      have hbit : (ctrl >>> bit) &&& 1 = 0 ↔ t.isCopy = false := hctrl (bit, t) List.mem_cons_self
      rw [List.flatMap_cons] at hcut hne
      rcases cut_append hcut hne with ⟨hinside, hlt⟩ | ⟨rest, rfl, hrest, hne'⟩
      · have hspace : dst.length < dstLen := by omega
        rcases pglzTokens_inside hbit bits hspace hinside hlt with herror | hstop
        · exact Or.inl ⟨_, herror⟩
        · exact Or.inr ⟨dst, hstop, by omega⟩
      · rw [pglzTokens_token hbit hone.1 (by omega)]
        exact ih (fun p hp => hctrl p (List.mem_cons_of_mem _ hp)) hone.2 hroom
          (Nat.le_of_succ_le_succ hlen) hrest hne'

end Group

/-! ## The stream -/

variable {ts : List PglzToken}

/-- The first group of a non-empty list of tokens that fills the output, as the
decoder meets it. -/
structure FirstGroup (dstLen : Nat) (ts : List PglzToken) (dst : List UInt8) : Prop where
  space : dst.length < dstLen
  fits : Fits dst.length (ts.take 8)
  room : (expand (ts.take 8) dst).length ≤ dstLen
  ends : 8 = (ts.take 8).length ∨ (expand (ts.take 8) dst).length = dstLen
  restFits : Fits (expand (ts.take 8) dst).length (ts.drop 8)
  restFills : (expand (ts.drop 8) (expand (ts.take 8) dst)).length = dstLen
  expand_eq : expand (ts.drop 8) (expand (ts.take 8) dst) = expand ts dst

theorem firstGroup {dst : List UInt8} (hne : ts ≠ []) (hfits : Fits dst.length ts)
    (hfills : (expand ts dst).length = dstLen) : FirstGroup dstLen ts dst := by
  have hexpand : expand (ts.drop 8) (expand (ts.take 8) dst) = expand ts dst := by
    rw [← expand_append, List.take_append_drop]
  have hsplit := hfits
  rw [← List.take_append_drop 8 ts] at hsplit
  obtain ⟨hgroup, hrest⟩ := fits_append hsplit rfl
  have hgrow := length_add_le_expand ts dst
  have hgrow' := length_add_le_expand (ts.drop 8) (expand (ts.take 8) dst)
  have hpos := List.length_pos_iff.mpr hne
  rw [hexpand] at hgrow'
  refine ⟨by omega, hgroup, by omega, ?_, hrest, by rw [hexpand, hfills], hexpand⟩
  rcases Nat.lt_or_ge ts.length 8 with hlt | hge
  · right
    rw [List.take_of_length_le hlt.le]
    exact hfills
  · left
    rw [List.length_take]
    omega

theorem pglzLoop_nil (fuel : Nat) (dst : List UInt8) : pglzLoop dstLen fuel [] dst = .ok dst := by
  cases fuel <;> rfl

/-- **Decoding a stream.** -/
theorem pglzLoop_encode (spare : Nat) :
    ∀ {n : Nat} {ts : List PglzToken} {fuel : Nat} {dst : List UInt8}, ts.length ≤ n →
      Fits dst.length ts → (expand ts dst).length = dstLen →
      (encodeGroups spare n ts).length ≤ fuel →
      pglzLoop dstLen fuel (encodeGroups spare n ts) dst = .ok (expand ts dst) := by
  intro n
  induction n with
  | zero =>
    intro ts fuel dst hn _ _ _
    rw [List.length_eq_zero_iff.mp (Nat.le_zero.mp hn)]
    exact pglzLoop_nil fuel dst
  | succ n ih =>
    intro ts fuel dst hn hfits hfills hfuel
    cases ts with
    | nil => exact pglzLoop_nil fuel dst
    | cons t ts =>
      have hg := firstGroup (List.cons_ne_nil t ts) hfits hfills
      cases fuel with
      | zero => exact absurd hfuel (Nat.not_succ_le_zero _)
      | succ fuel =>
        rw [encodeGroups, encodeGroup, List.cons_append] at hfuel ⊢
        rw [pglzLoop, if_neg (Nat.not_le.mpr hg.space), pglzTokens_group _ (control_matches _ _)
          hg.fits hg.room (by simp) hg.ends]
        dsimp only
        rw [List.length_cons, List.length_append] at hfuel
        rw [ih (by simp at hn ⊢; omega) hg.restFits hg.restFills (by omega), hg.expand_eq]

/-- **Decoding a stream that is cut off.** -/
theorem pglzLoop_cut (spare : Nat) :
    ∀ {n : Nat} {ts : List PglzToken} {fuel : Nat} {dst src : List UInt8}, ts.length ≤ n →
      Fits dst.length ts → (expand ts dst).length = dstLen →
      src <+: encodeGroups spare n ts → src ≠ encodeGroups spare n ts → src.length ≤ fuel →
      (∃ e, pglzLoop dstLen fuel src dst = .error e) ∨
        ∃ out, pglzLoop dstLen fuel src dst = .ok out ∧ out.length < dstLen := by
  intro n
  induction n with
  | zero =>
    intro ts fuel dst src _ _ _ hcut hne _
    exact absurd (List.prefix_nil.mp hcut) hne
  | succ n ih =>
    intro ts fuel dst src hn hfits hfills hcut hne hfuel
    cases ts with
    | nil => exact absurd (List.prefix_nil.mp hcut) hne
    | cons t ts =>
      have hg := firstGroup (List.cons_ne_nil t ts) hfits hfills
      cases src with
      | nil => exact Or.inr ⟨dst, pglzLoop_nil fuel dst, hg.space⟩
      | cons ctrl src =>
        cases fuel with
        | zero => exact absurd hfuel (Nat.not_succ_le_zero _)
        | succ fuel =>
          rw [encodeGroups, encodeGroup, List.cons_append] at hcut hne
          obtain ⟨rfl, hcut'⟩ := List.cons_prefix_cons.mp hcut
          have hne' := fun h => hne (congrArg _ h)
          have hcontrol := control_matches spare ((t :: ts).take 8)
          rw [pglzLoop, if_neg (Nat.not_le.mpr hg.space)]
          rcases cut_append hcut' hne' with ⟨hinside, hlt⟩ | ⟨rest, rfl, hrest, hne''⟩
          · -- the cut is in the first group
            rcases pglzTokens_cut hcontrol hg.fits hg.room (by simp) hinside
              (fun h => absurd (congrArg List.length h) (Nat.ne_of_lt hlt)) with
              ⟨e, herror⟩ | ⟨out, hstop, hshort⟩
            · rw [herror]
              exact Or.inl ⟨e, rfl⟩
            · rw [hstop]
              exact Or.inr ⟨out, pglzLoop_nil fuel out, hshort.trans_le hg.room⟩
          · rw [pglzTokens_group _ hcontrol hg.fits hg.room (by simp) hg.ends]
            rw [List.length_cons, List.length_append] at hfuel
            exact ih (by simp at hn ⊢; omega) hg.restFits hg.restFills hrest hne'' (by omega)

/-! ## Arbitrary input -/

theorem length_pglzCopy_le {off : Nat} :
    ∀ {len : Nat} {dst : List UInt8}, dst.length ≤ dstLen →
      (pglzCopy dstLen off len dst).length ≤ dstLen := by
  intro len
  induction len with
  | zero => exact fun h => h
  | succ len ih =>
    intro dst h
    rw [pglzCopy]
    split
    · exact h
    · exact ih (by simp; omega)

theorem length_pglzReference {src rest : List UInt8} {ref : Nat × Nat}
    (h : pglzReference src = .ok (ref, rest)) : rest.length ≤ src.length := by
  match src with
  | [] => simp [pglzReference] at h
  | [_] => simp [pglzReference] at h
  | b :: b' :: src =>
    simp only [pglzReference] at h
    split at h
    · injection h with h
      rw [← (Prod.mk.inj h).2]
      simp only [List.length_cons]
      omega
    · cases src with
      | nil => simp at h
      | cons c src =>
        injection h with h
        rw [← (Prod.mk.inj h).2]
        simp only [List.length_cons]
        omega

/-- A group takes from the input and never fills more than the output has room for. -/
theorem pglzTokens_bounds {ctrl : UInt8} :
    ∀ {bits src dst rest out : List UInt8},
      pglzTokens dstLen ctrl bits src dst = .ok (rest, out) →
      rest.length ≤ src.length ∧ (dst.length ≤ dstLen → out.length ≤ dstLen) := by
  intro bits
  induction bits with
  | nil =>
    intro src dst rest out h
    injection h with h
    injection h with hrest hout
    rw [hrest, hout]
    exact ⟨Nat.le_refl _, id⟩
  | cons bit bits ih =>
    intro src dst rest out h
    by_cases hroom : dstLen ≤ dst.length
    · have hstop : pglzTokens dstLen ctrl (bit :: bits) src dst = .ok (src, dst) := if_pos hroom
      rw [hstop] at h
      injection h with h
      injection h with hrest hout
      rw [hrest, hout]
      exact ⟨Nat.le_refl _, id⟩
    · cases src with
      | nil =>
        have hstop : pglzTokens dstLen ctrl (bit :: bits) [] dst = .ok ([], dst) := if_neg hroom
        rw [hstop] at h
        injection h with h
        injection h with hrest hout
        rw [← hrest, hout]
        exact ⟨Nat.le_refl _, id⟩
      | cons b src =>
        by_cases hbit : (ctrl >>> bit) &&& 1 = 0
        · have hstep : pglzTokens dstLen ctrl bits src (dst ++ [b]) = .ok (rest, out) :=
            ((if_neg hroom).trans (if_pos hbit)).symm.trans h
          obtain ⟨hrest, hout⟩ := ih hstep
          refine ⟨hrest.trans (Nat.le_succ _), fun _ => hout ?_⟩
          rw [List.length_append]
          simp only [List.length_singleton]
          omega
        · rw [pglzTokens_reference bits (Nat.lt_of_not_le hroom) (List.cons_ne_nil b src) hbit] at h
          cases href : pglzReference (b :: src) with
          | error e => rw [href] at h; exact absurd h (by simp [Except.bind])
          | ok found =>
            obtain ⟨⟨len, off⟩, src'⟩ := found
            rw [href] at h
            simp only [Except.bind] at h
            split at h
            · simp at h
            · obtain ⟨hrest, hout⟩ := ih h
              exact ⟨hrest.trans (length_pglzReference href), fun hle =>
                hout (length_pglzCopy_le hle)⟩

/-- The loop is done before its bound is: every round takes a control byte. -/
theorem pglzLoop_fuel :
    ∀ {fuel fuel' : Nat} {src dst : List UInt8}, src.length ≤ fuel → src.length ≤ fuel' →
      pglzLoop dstLen fuel src dst = pglzLoop dstLen fuel' src dst := by
  intro fuel
  induction fuel with
  | zero =>
    intro fuel' src dst h _
    rw [List.length_eq_zero_iff.mp (Nat.le_zero.mp h), pglzLoop_nil, pglzLoop_nil]
  | succ fuel ih =>
    intro fuel' src dst h h'
    cases src with
    | nil => rw [pglzLoop_nil, pglzLoop_nil]
    | cons ctrl src =>
      cases fuel' with
      | zero => exact absurd h' (Nat.not_succ_le_zero _)
      | succ fuel' =>
        rw [pglzLoop, pglzLoop]
        split
        · rfl
        · cases htokens : pglzTokens dstLen ctrl [0, 1, 2, 3, 4, 5, 6, 7] src dst with
          | error e => rfl
          | ok found =>
            obtain ⟨rest, out⟩ := found
            have hrest := (pglzTokens_bounds htokens).1
            rw [List.length_cons] at h h'
            exact ih (by omega) (by omega)

theorem length_pglzLoop_le :
    ∀ {fuel : Nat} {src dst out : List UInt8}, dst.length ≤ dstLen →
      pglzLoop dstLen fuel src dst = .ok out → out.length ≤ dstLen := by
  intro fuel
  induction fuel with
  | zero =>
    intro src dst out hle h
    injection h with h
    rw [← h]
    exact hle
  | succ fuel ih =>
    intro src dst out hle h
    cases src with
    | nil =>
      injection h with h
      rw [← h]
      exact hle
    | cons ctrl src =>
      rw [pglzLoop] at h
      split at h
      · injection h with h
        rw [← h]
        exact hle
      · cases htokens : pglzTokens dstLen ctrl [0, 1, 2, 3, 4, 5, 6, 7] src dst with
        | error e => rw [htokens] at h; exact absurd h (by simp)
        | ok found =>
          obtain ⟨rest, mid⟩ := found
          rw [htokens] at h
          exact ih ((pglzTokens_bounds htokens).2 hle) h

/-! ## The three results -/

theorem pglzDecompress_encode (spare : Nat) (hfits : Fits 0 ts) :
    pglzDecompress (encode spare ts) (expand ts []).length = .ok (expand ts []) :=
  pglzLoop_encode spare (Nat.le_refl _) hfits rfl (Nat.le_refl _)

/-- A truncated image is refused: its body is too short, if it decompresses at all. -/
theorem restore_cut (codecs : Codecs) (spare : Nat) (hfits : Fits 0 ts) {img : DecodedImage}
    (hpglz : img.compression = .pglz) (hcut : img.bytes <+: encode spare ts)
    (hne : img.bytes ≠ encode spare ts)
    (hfills : (expand ts []).length + img.holeLength.toNat = XLOG_BLCKSZ) :
    ∃ e, img.restore codecs = .error e := by
  have hlen : (expand ts []).length = XLOG_BLCKSZ - img.holeLength.toNat := by omega
  have hbody : img.body codecs (XLOG_BLCKSZ - img.holeLength.toNat)
      = pglzDecompress img.bytes (XLOG_BLCKSZ - img.holeLength.toNat) := by
    rw [DecodedImage.body, hpglz]
  simp only [DecodedImage.restore, hbody]
  split
  · exact ⟨_, rfl⟩
  · have hstart : Fits ([] : List UInt8).length ts := hfits
    rcases pglzLoop_cut spare (Nat.le_refl _) hstart hlen hcut hne (Nat.le_refl _) with
      ⟨e, herror⟩ | ⟨out, hok, hshort⟩
    · rw [pglzDecompress, herror]
      exact ⟨e, rfl⟩
    · rw [pglzDecompress, hok]
      exact ⟨_, if_pos (Nat.ne_of_lt hshort)⟩

end AethelDB.Pageserver
