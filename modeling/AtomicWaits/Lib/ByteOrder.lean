import Mathlib.Data.BitVec
import Mathlib.Order.Basic

/-!
# Numbers in memory

The bytes that represent a number of `8 * n` bits, in either byte order, and the number that `n` bytes represent.
The bytes of a number read from memory are those it was read from (`toBytes_fromBytes`), so two numbers are equal
exactly when their bytes are (`fromBytes_inj`).
-/

namespace AtomicWaits.Lib

/-- The place in the number, from the least significant byte on, of the `i`th byte in memory. -/
def bytePlace (bigEndian : Bool) (n i : ℕ) : ℕ := if bigEndian then n - 1 - i else i

/-- The number with these bits, from the least significant one on. -/
def ofBits (m : ℕ) (bit : ℕ → Bool) : BitVec m :=
  (BitVec.ofBoolListLE ((List.range m).map bit)).cast (by rw [List.length_map, List.length_range])

theorem getLsbD_ofBits {m k : ℕ} (bit : ℕ → Bool) (hk : k < m) : (ofBits m bit).getLsbD k = bit k := by
  rw [ofBits, BitVec.getLsbD_cast, BitVec.getLsbD_ofBoolListLE]
  simp [hk]

def fromBytes (bigEndian : Bool) (n : ℕ) (b : ℕ → BitVec 8) : BitVec (8 * n) :=
  ofBits (8 * n) fun k => (b (bytePlace bigEndian n (k / 8))).getLsbD (k % 8)

def toBytes (bigEndian : Bool) (n : ℕ) (v : BitVec (8 * n)) (i : ℕ) : BitVec 8 :=
  ofBits 8 fun k => v.getLsbD (8 * bytePlace bigEndian n i + k)

example : (fromBytes true 2 fun i => if i = 0 then 0x12 else 0x34).toNat = 0x1234 := by decide

variable (bigEndian : Bool) {n i : ℕ}

theorem bytePlace_lt (h : i < n) : bytePlace bigEndian n i < n := by
  unfold bytePlace
  split <;> omega

theorem bytePlace_bytePlace (h : i < n) : bytePlace bigEndian n (bytePlace bigEndian n i) = i := by
  unfold bytePlace
  split <;> omega

theorem toBytes_fromBytes (b : ℕ → BitVec 8) (h : i < n) :
    toBytes bigEndian n (fromBytes bigEndian n b) i = b i := by
  have hplace := bytePlace_lt bigEndian h
  apply BitVec.eq_of_getLsbD_eq
  intro k hk
  rw [toBytes, getLsbD_ofBits _ hk, fromBytes, getLsbD_ofBits _ (by omega)]
  have hdiv : (8 * bytePlace bigEndian n i + k) / 8 = bytePlace bigEndian n i := by omega
  have hmod : (8 * bytePlace bigEndian n i + k) % 8 = k := by omega
  rw [hdiv, hmod, bytePlace_bytePlace bigEndian h]

theorem fromBytes_congr {a b : ℕ → BitVec 8} (h : ∀ i, i < n → a i = b i) :
    fromBytes bigEndian n a = fromBytes bigEndian n b := by
  apply BitVec.eq_of_getLsbD_eq
  intro k hk
  have hplace : k / 8 < n := by omega
  rw [fromBytes, getLsbD_ofBits _ hk, fromBytes, getLsbD_ofBits _ hk, h _ (bytePlace_lt bigEndian hplace)]

theorem fromBytes_inj {a b : ℕ → BitVec 8} :
    fromBytes bigEndian n a = fromBytes bigEndian n b ↔ ∀ i, i < n → a i = b i := by
  refine ⟨fun h i hi => ?_, fromBytes_congr bigEndian⟩
  rw [← toBytes_fromBytes bigEndian a hi, h, toBytes_fromBytes bigEndian b hi]

end AtomicWaits.Lib
