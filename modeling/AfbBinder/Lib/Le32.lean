import AfbBinder.Lib.Cstrings

/-! Words of 32 bits as four bytes, the lowest first. -/
namespace AfbBinder.Lib.Le32
open Cstrings

def htole32 (v : UInt32) : Bytes :=
  [UInt8.ofNat (v.toNat % 256), UInt8.ofNat (v.toNat / 256 % 256),
    UInt8.ofNat (v.toNat / 65536 % 256), UInt8.ofNat (v.toNat / 16777216 % 256)]

def le32toh (a b c d : UInt8) : UInt32 :=
  UInt32.ofNat (a.toNat + 256 * b.toNat + 65536 * c.toNat + 16777216 * d.toNat)

@[simp] theorem length_htole32 (v : UInt32) : (htole32 v).length = 4 := rfl

theorem le32toh_htole32 (v : UInt32) :
    le32toh (UInt8.ofNat (v.toNat % 256)) (UInt8.ofNat (v.toNat / 256 % 256))
      (UInt8.ofNat (v.toNat / 65536 % 256)) (UInt8.ofNat (v.toNat / 16777216 % 256)) = v := by
  apply UInt32.toNat_inj.mp
  have hlt := v.toNat_lt
  simp only [le32toh, UInt32.toNat_ofNat', UInt8.toNat_ofNat']
  omega

end AfbBinder.Lib.Le32
