import WeavatrixMemory.Identity

namespace WeavatrixMemory.Codecs.Basic

open Error Identity

/-- The serialization boundary of the stores. -/
structure Codec (T : Type) where
  encode : T → Result (Vec UInt8)
  decode : List UInt8 → Result T

def Codec.RoundTrips {T : Type} (codec : Codec T) : Prop :=
  ∀ value bytes, codec.encode value = .ok bytes → codec.decode bytes.items = .ok value

def bytesCodec : Codec (Vec UInt8) where
  encode value := .ok value
  decode bytes := Vec.of bytes

theorem bytesCodec_roundTrips : bytesCodec.RoundTrips := by
  intro value bytes h
  obtain rfl := Except.ok.inj h
  exact Vec.of_eq_ok.mpr rfl

end WeavatrixMemory.Codecs.Basic
