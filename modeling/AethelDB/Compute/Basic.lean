import AethelDB.Lib.ByteLog
import AethelDB.Lib.Wire

/-!
# What the C programs share

`put_be32`, `put_be64`, `get_be32` and `get_be64`, which the storage manager
(`compute/extension/aethel_smgr/aethel_smgr.c`) and the wal-redo mode
(`compute/patches/0002-wal-redo-mode.patch`) both define for themselves, with shifts and casts. A
pointer into a buffer is the rest of the buffer from there on. They do what `to_be_bytes` and
`from_be_bytes` do on the other side of the pipe.

A message is built by writes at offsets into a buffer that holds anything before. Writes that follow
one another leave no trace of it (`store_layout`).
-/

namespace AethelDB.Compute

open AethelDB.Lib

/-! ## Memory -/

def BLCKSZ : Nat := 8192

/-- The largest size `palloc` accepts. -/
def MaxAllocSize : Nat := 0x3fffffff

/-- Memory that nobody has written. -/
def uninit (junk : Nat → UInt8) (n : Nat) : List UInt8 := (List.range n).map junk

@[simp] theorem length_uninit (junk : Nat → UInt8) (n : Nat) : (uninit junk n).length = n := by
  simp [uninit]

/-- Writes into a buffer, each at an offset. -/
def store (p : List UInt8) (writes : List (Nat × List UInt8)) : List UInt8 :=
  writes.foldl (fun p w => copyAt p w.1 w.2) p

/-- Parts at consecutive offsets. -/
def layout : Nat → List (List UInt8) → List (Nat × List UInt8)
  | _, [] => []
  | o, part :: parts => (o, part) :: layout (o + part.length) parts

theorem store_layout (parts : List (List UInt8)) (written rest : List UInt8) :
    store (written ++ rest) (layout written.length parts)
      = written ++ parts.flatten ++ rest.drop parts.flatten.length := by
  induction parts generalizing written rest with
  | nil => simp [layout, store]
  | cons part parts ih =>
    have hwrite : copyAt (written ++ rest) written.length part
        = (written ++ part) ++ rest.drop part.length := by
      rw [copyAt, List.take_left, List.drop_append, List.drop_of_length_le (by omega)]
      simp
    have hnext := ih (written ++ part) (rest.drop part.length)
    rw [List.length_append] at hnext
    rw [layout, store, List.foldl_cons, hwrite]
    refine hnext.trans ?_
    rw [List.flatten_cons, List.length_append, List.drop_drop, List.append_assoc written part]

/-! ## Words -/

def putBe32 (v : UInt32) : List UInt8 :=
  [(v >>> 24).toUInt8, (v >>> 16).toUInt8, (v >>> 8).toUInt8, v.toUInt8]

def putBe64 (v : UInt64) : List UInt8 :=
  putBe32 (v >>> 32).toUInt32 ++ putBe32 (v &&& 0xFFFFFFFF).toUInt32

def getBe32 (p : List UInt8) : UInt32 :=
  ((p.getD 0 0).toUInt32 <<< 24) ||| ((p.getD 1 0).toUInt32 <<< 16) ||| ((p.getD 2 0).toUInt32 <<< 8)
    ||| (p.getD 3 0).toUInt32

def getBe64 (p : List UInt8) : UInt64 :=
  ((getBe32 p).toUInt64 <<< 32) ||| (getBe32 (p.drop 4)).toUInt64

theorem putBe32_eq (v : UInt32) : putBe32 v = toBeBytes 4 v.toNat := by
  have hbyte : ∀ (a : UInt8) (n : Nat), a.toNat = n % 256 → a = UInt8.ofNat n := by
    intro a n h
    apply UInt8.toNat_inj.mp
    rw [h]
    exact UInt8.toNat_ofNat'.symm
  simp only [putBe32, toBeBytes]
  congr 1
  · exact hbyte _ _ (by simp [Nat.shiftRight_eq_div_pow])
  · congr 1
    · exact hbyte _ _ (by simp [Nat.shiftRight_eq_div_pow])
    · congr 1
      · exact hbyte _ _ (by simp [Nat.shiftRight_eq_div_pow])
      · congr 1
        exact hbyte _ _ (by simp)

theorem putBe64_eq (v : UInt64) : putBe64 v = toBeBytes 8 v.toNat := by
  have hhigh : (v >>> 32).toUInt32.toNat = v.toNat / 256 ^ 4 := by
    have hlt := v.toNat_lt
    rw [UInt64.toNat_toUInt32, UInt64.toNat_shiftRight]
    show v.toNat >>> 32 % 2 ^ 32 = _
    rw [Nat.shiftRight_eq_div_pow, Nat.mod_eq_of_lt (by omega)]
    rfl
  have hlow : (v &&& 0xFFFFFFFF).toUInt32.toNat = v.toNat % 256 ^ 4 := by
    have hmask : v.toNat &&& 0xFFFFFFFF = v.toNat % 2 ^ 32 := Nat.and_two_pow_sub_one_eq_mod v.toNat 32
    rw [UInt64.toNat_toUInt32, UInt64.toNat_and]
    show (v.toNat &&& 0xFFFFFFFF) % 2 ^ 32 = _
    rw [hmask, Nat.mod_mod]
    rfl
  rw [putBe64, putBe32_eq, putBe32_eq, hhigh, hlow, toBeBytes_mod]
  exact (toBeBytes_append 4 4 v.toNat).symm

theorem or_eq_add {a b k : Nat} (h : b < 2 ^ k) : a * 2 ^ k ||| b = a * 2 ^ k + b := by
  rw [Nat.mul_comm]
  exact (Nat.two_pow_add_eq_or_of_lt h a).symm

theorem getBe32_cons (a b c d : UInt8) (rest : List UInt8) :
    getBe32 (a :: b :: c :: d :: rest) = UInt32.ofNat (fromBeBytes [a, b, c, d]) := by
  have ha := a.toNat_lt
  have hb := b.toNat_lt
  have hc := c.toNat_lt
  have hd := d.toNat_lt
  have hvalue : fromBeBytes [a, b, c, d]
      = ((a.toNat * 256 + b.toNat) * 256 + c.toNat) * 256 + d.toNat := by
    simp [fromBeBytes]
  apply UInt32.toNat_inj.mp
  rw [hvalue, UInt32.toNat_ofNat_of_lt' (by rw [UInt32.size]; omega)]
  have hshift : ∀ (x : UInt8) (k : UInt32) (n : Nat), k.toNat = n → n ≤ 24 →
      (x.toUInt32 <<< k).toNat = x.toNat * 2 ^ n := by
    intro x k n hk hn
    have hx := x.toNat_lt
    have hpow : 2 ^ n ≤ 2 ^ 24 := Nat.pow_le_pow_right (by omega) hn
    have hfit : x.toNat * 2 ^ n < 2 ^ 32 := by nlinarith
    rw [UInt32.toNat_shiftLeft, UInt8.toNat_toUInt32, hk, Nat.mod_eq_of_lt (show n < 32 by omega),
      Nat.shiftLeft_eq, Nat.mod_eq_of_lt hfit]
  show ((a.toUInt32 <<< 24) ||| (b.toUInt32 <<< 16) ||| (c.toUInt32 <<< 8) ||| d.toUInt32).toNat = _
  rw [UInt32.toNat_or, UInt32.toNat_or, UInt32.toNat_or, hshift a 24 24 rfl (by omega),
    hshift b 16 16 rfl (by omega), hshift c 8 8 rfl (by omega), UInt8.toNat_toUInt32]
  show ((a.toNat * 2 ^ 24 ||| b.toNat * 2 ^ 16) ||| c.toNat * 2 ^ 8) ||| d.toNat = _
  rw [or_eq_add (by omega)]
  have hab : a.toNat * 2 ^ 24 + b.toNat * 2 ^ 16 = (a.toNat * 2 ^ 8 + b.toNat) * 2 ^ 16 := by ring
  rw [hab, or_eq_add (by omega)]
  have habc : (a.toNat * 2 ^ 8 + b.toNat) * 2 ^ 16 + c.toNat * 2 ^ 8
      = (a.toNat * 2 ^ 16 + b.toNat * 2 ^ 8 + c.toNat) * 2 ^ 8 := by ring
  rw [habc, or_eq_add (by omega)]
  ring

theorem getBe32_eq {p : List UInt8} (h : 4 ≤ p.length) :
    getBe32 p = UInt32.ofNat (fromBeBytes (p.take 4)) := by
  match p, h with
  | a :: b :: c :: d :: rest, _ => exact getBe32_cons a b c d rest

theorem getBe32_toBeBytes (v : UInt32) (rest : List UInt8) : getBe32 (toBeBytes 4 v.toNat ++ rest) = v := by
  have hlen : 4 ≤ (toBeBytes 4 v.toNat ++ rest).length := by simp
  rw [getBe32_eq hlen, List.take_left' (length_toBeBytes 4 v.toNat), ofNat_fromBeBytes_u32]

theorem getBe64_toBeBytes (v : UInt64) (rest : List UInt8) : getBe64 (toBeBytes 8 v.toNat ++ rest) = v := by
  have hlt := v.toNat_lt
  have hhigh : (UInt32.ofNat (v.toNat / 256 ^ 4)).toNat = v.toNat / 256 ^ 4 :=
    UInt32.toNat_ofNat_of_lt' (by rw [UInt32.size]; norm_num; omega)
  have hlow : (UInt32.ofNat (v.toNat % 256 ^ 4)).toNat = v.toNat % 256 ^ 4 :=
    UInt32.toNat_ofNat_of_lt' (by rw [UInt32.size]; norm_num; omega)
  have hsplit : toBeBytes 8 v.toNat = toBeBytes 4 (UInt32.ofNat (v.toNat / 256 ^ 4)).toNat
      ++ toBeBytes 4 (UInt32.ofNat (v.toNat % 256 ^ 4)).toNat := by
    rw [hhigh, hlow, toBeBytes_mod]
    exact toBeBytes_append 4 4 v.toNat
  have hdrop : (toBeBytes 4 (UInt32.ofNat (v.toNat / 256 ^ 4)).toNat
      ++ (toBeBytes 4 (UInt32.ofNat (v.toNat % 256 ^ 4)).toNat ++ rest)).drop 4
        = toBeBytes 4 (UInt32.ofNat (v.toNat % 256 ^ 4)).toNat ++ rest :=
    List.drop_left' (length_toBeBytes _ _)
  rw [hsplit, List.append_assoc, getBe64, hdrop, getBe32_toBeBytes, getBe32_toBeBytes]
  apply UInt64.toNat_inj.mp
  rw [UInt64.toNat_or, UInt64.toNat_shiftLeft, UInt32.toNat_toUInt64, UInt32.toNat_toUInt64, hhigh, hlow]
  show (v.toNat / 256 ^ 4) <<< 32 % 2 ^ 64 ||| v.toNat % 256 ^ 4 = v.toNat
  rw [Nat.shiftLeft_eq, Nat.mod_eq_of_lt (by norm_num; omega), or_eq_add (by norm_num; omega)]
  norm_num
  omega

end AethelDB.Compute
