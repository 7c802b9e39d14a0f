import ProjectGraph.Digest.Sha1
import ProjectGraph.ObjectId.Basic

/-! # Ids by digest

An id is the first twenty-four hexadecimal digits of a name-based UUID of version 5, upper case and
without hyphens, in the namespace of X.500 names. -/

namespace ProjectGraph.ObjectId

/-- The UUID of the namespace of X.500 names. -/
def x500Namespace : List UInt8 :=
  [0x6b, 0xa7, 0xb8, 0x14, 0x9d, 0xad, 0x11, 0xd1, 0x80, 0xb4, 0x00, 0xc0, 0x4f, 0xd4, 0x30, 0xc8]

/-- Marks a digest as a UUID: the version goes into byte six, the variant into byte eight. -/
def stamp (digest : List UInt8) : List UInt8 :=
  (digest.modify 6 fun b => (b &&& 0x0f) ||| 0x50).modify 8 fun b => (b &&& 0x3f) ||| 0x80

def upperHexDigit (n : Nat) : Char :=
  if n < 10 then Char.ofNat ('0'.toNat + n) else Char.ofNat ('A'.toNat + (n - 10))

def upperHex (bytes : List UInt8) : List Char :=
  bytes.flatMap fun b => [upperHexDigit (b.toNat / 16), upperHexDigit (b.toNat % 16)]

/-- The id of a key. -/
def digest (key : String) : ObjectId :=
  let bytes := stamp (Sha1.digest (x500Namespace ++ key.toUTF8.toList))
  ⟨String.ofList ((upperHex bytes).take 24)⟩

theorem upperHexDigit_ne_colon : ∀ n < 16, upperHexDigit n ≠ ':' := by decide

theorem colon_not_mem_upperHex (bytes : List UInt8) : ':' ∉ upperHex bytes := by
  intro h
  obtain ⟨b, -, hb⟩ := List.mem_flatMap.1 h
  have hlt : b.toNat < 256 := b.toNat_lt
  simp only [List.mem_cons, List.not_mem_nil, or_false] at hb
  rcases hb with hb | hb
  · exact upperHexDigit_ne_colon _ (by omega) hb.symm
  · exact upperHexDigit_ne_colon _ (Nat.mod_lt _ (by decide)) hb.symm

theorem colon_not_mem_digest (key : String) : ':' ∉ (digest key).text.toList := by
  intro h
  simp only [digest, String.toList_ofList] at h
  exact colon_not_mem_upperHex _ (List.mem_of_mem_take h)

instance digestScheme : IdScheme := ⟨digest, colon_not_mem_digest⟩

end ProjectGraph.ObjectId
