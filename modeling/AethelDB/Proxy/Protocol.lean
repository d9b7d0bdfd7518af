import Mathlib

/-!
# The client protocol

The integers of the PostgreSQL protocol and the packet the proxy itself sends
(`proxy/src/protocol.rs`).
-/

namespace AethelDB.Proxy

def beNat (bytes : List UInt8) : Nat := bytes.foldl (fun n b => n * 256 + b.toNat) 0

/-- `i32::from_be_bytes`. -/
def i32FromBe (bytes : List UInt8) : Int32 := Int32.ofNat (beNat bytes)

/-- `i32::to_be_bytes`. -/
def i32ToBe (n : Int32) : List UInt8 :=
  let bits := n.toUInt32.toNat
  [UInt8.ofNat (bits / 2 ^ 24), UInt8.ofNat (bits / 2 ^ 16), UInt8.ofNat (bits / 2 ^ 8),
    UInt8.ofNat bits]

/-- The request code of a `CancelRequest` packet. -/
def CANCEL_REQUEST_CODE : Int32 := 80877102

/-- The `CancelRequest` packet for a backend's key, as a client sends it. -/
def cancelRequestBytes (processId secretKey : Int32) : List UInt8 :=
  i32ToBe 16 ++ i32ToBe CANCEL_REQUEST_CODE ++ i32ToBe processId ++ i32ToBe secretKey

@[simp] theorem length_i32ToBe (n : Int32) : (i32ToBe n).length = 4 := rfl

theorem i32FromBe_i32ToBe (n : Int32) : i32FromBe (i32ToBe n) = n := by
  have hlt : n.toUInt32.toNat < 2 ^ 32 := n.toUInt32.toNat_lt
  have hbe : beNat (i32ToBe n) = n.toUInt32.toNat := by
    simp only [i32ToBe, beNat, List.foldl_cons, List.foldl_nil, UInt8.toNat_ofNat']
    omega
  rw [i32FromBe, hbe]
  apply Int32.toBitVec_inj.mp
  simp

theorem i32ToBe_i32FromBe {bytes : List UInt8} (h : bytes.length = 4) :
    i32ToBe (i32FromBe bytes) = bytes := by
  obtain ⟨a, b, c, d, rfl⟩ := List.length_eq_four.mp h
  have ha := a.toNat_lt
  have hb := b.toNat_lt
  have hc := c.toNat_lt
  have hd := d.toNat_lt
  have hbits : (i32FromBe [a, b, c, d]).toUInt32.toNat
      = ((a.toNat * 256 + b.toNat) * 256 + c.toNat) * 256 + d.toNat := by
    show (UInt32.ofNat (beNat [a, b, c, d])).toNat = _
    simp only [beNat, List.foldl_cons, List.foldl_nil, UInt32.toNat_ofNat']
    omega
  have hbyte : ∀ (x : UInt8) (n : Nat), n % 256 = x.toNat → UInt8.ofNat n = x := by
    intro x n hn
    apply UInt8.toNat_inj.mp
    rw [UInt8.toNat_ofNat']
    exact hn
  unfold i32ToBe
  simp only [hbits]
  rw [hbyte a _ (by omega), hbyte b _ (by omega), hbyte c _ (by omega), hbyte d _ (by omega)]

example : i32FromBe (i32ToBe (-7)) = -7 := by decide

end AethelDB.Proxy
