import NdnFc.Lib.BigEndian

/-!
# Integers in memory

An integer lies in memory in the byte order of the host. Programs convert it and copy the memory of
the result (`ByteOrder.store_nativeToBig`), or the other way around (`ByteOrder.bigToNative_load`).
-/

namespace ByteOrder

open BigEndian

inductive Host where
  | little
  | big
deriving DecidableEq

variable (host : Host)

/-- The memory of an integer of `w` bytes. -/
def store (w value : ℕ) : List UInt8 :=
  match host with
  | .little => (ofNat w value).reverse
  | .big => ofNat w value

def load (bytes : List UInt8) : ℕ :=
  match host with
  | .little => toNat bytes.reverse
  | .big => toNat bytes

/-- The integer with its bytes in the opposite order. -/
def endianReverse (w value : ℕ) : ℕ :=
  toNat (ofNat w value).reverse

def nativeToBig (w value : ℕ) : ℕ :=
  match host with
  | .little => endianReverse w value
  | .big => value

def bigToNative (w value : ℕ) : ℕ :=
  nativeToBig host w value

theorem ofNat_endianReverse (w value : ℕ) :
    ofNat w (endianReverse w value) = (ofNat w value).reverse := by
  have h := ofNat_toNat (ofNat w value).reverse
  rwa [List.length_reverse, length_ofNat] at h

theorem store_nativeToBig (w value : ℕ) :
    store host w (nativeToBig host w value) = ofNat w value := by
  cases host with
  | little => rw [store, nativeToBig, ofNat_endianReverse, List.reverse_reverse]
  | big => rfl

theorem bigToNative_load {w : ℕ} {bytes : List UInt8} (h : bytes.length = w) :
    bigToNative host w (load host bytes) = toNat bytes := by
  cases host with
  | little =>
    have hbytes := ofNat_toNat bytes.reverse
    rw [List.length_reverse, h] at hbytes
    rw [bigToNative, nativeToBig, load, endianReverse, hbytes, List.reverse_reverse]
  | big => rfl

end ByteOrder
