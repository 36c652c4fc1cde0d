import Luksbox.Lib.Buffer
import Luksbox.Lib.Slices
import Luksbox.Lib.Wp
import Luksbox.Model.Deniable

/-!
# The bytes of a slot payload (`luksbox-core/src/deniable.rs`, `v2_payload`)

What an envelope seals: eight bytes of kind and lengths, the material, the
wrapped master key, and random padding up to a length that is the same for all
kinds. The rest of the development sees the wrapped master key as a box; here it
is the bytes of one.
-/

namespace Luksbox.PayloadCodec

open Lib
open Luksbox.SlotPayload (saltLenOf saltBytes)

inductive Error where
  | invalidField
  | panic
  deriving DecidableEq

def payloadHeaderLen : Nat := 8

def payloadPlaintextLen : Nat := 4068

structure SlotPayload where
  kind : DeniableKindTag
  material : DeniableMaterial
  wrappedMvkNonce : Bytes 12
  wrappedMvkCtAndTag : Bytes 48
  deriving DecidableEq

namespace SlotPayload

def new (kind : DeniableKindTag) (material : DeniableMaterial) (nonce : Bytes 12)
    (ctAndTag : Bytes 48) : Except Error SlotPayload :=
  if material.credId.length > credIdMaxLen then .error .invalidField
  else if material.tpmBlob.length > tpmBlobMaxLen then .error .invalidField
  else if material.credId.length + saltLenOf material + material.tpmBlob.length > materialBudget then
    .error .invalidField
  else .ok ⟨kind, material, nonce, ctAndTag⟩

def head (p : SlotPayload) : List UInt8 :=
  [p.kind.toU8] ++ leBytes 2 p.material.credId.length ++ [UInt8.ofNat (saltLenOf p.material)] ++
    leBytes 2 p.material.tpmBlob.length ++ [0, 0]

/-- Everything but the padding. -/
def fields (p : SlotPayload) : List UInt8 :=
  p.head ++ (p.material.credId ++ (saltBytes p.material ++ (p.material.tpmBlob ++
    (p.wrappedMvkNonce.val ++ p.wrappedMvkCtAndTag.val))))

/-- The fields are copied into the buffer one behind the other, and what is left
of it is filled from `random`. A field that runs past the end panics. -/
def encode (p : SlotPayload) (random : (n : Nat) → Bytes n) :
    Except Error (Bytes payloadPlaintextLen) :=
  if h : p.fields.length ≤ payloadPlaintextLen then
    .ok ⟨p.fields ++ (random (payloadPlaintextLen - p.fields.length)).val, by
      rw [List.length_append, Bytes.length_val]
      omega⟩
  else .error .panic

end SlotPayload

/-- The salt, if its length says that there is one. -/
def saltAt (buf : List UInt8) (off saltLen : Nat) : Except Error (Option (Bytes hmacSaltLen)) :=
  if saltLen = hmacSaltLen then some <$> okOr .panic (arrayAt buf off hmacSaltLen) else .ok none

/-- `decode`, once the lengths are known. -/
def decodeFields (buf : List UInt8) (kind : DeniableKindTag) (credIdLen saltLen tpmBlobLen : Nat) :
    Except Error SlotPayload := do
  let off := payloadHeaderLen
  let credId ← okOr .panic (sliceOf buf off (off + credIdLen))
  let off := off + credIdLen
  let salt ← saltAt buf off saltLen
  let off := off + saltLen
  let tpmBlob ← okOr .panic (sliceOf buf off (off + tpmBlobLen))
  let off := off + tpmBlobLen
  let nonce ← okOr .panic (arrayAt buf off 12)
  let ctAndTag ← okOr .panic (arrayAt buf (off + 12) 48)
  .ok ⟨kind, ⟨credId, salt, tpmBlob⟩, nonce, ctAndTag⟩

def decode (buf : Bytes payloadPlaintextLen) : Except Error SlotPayload :=
  match sliceOf buf.val 0 payloadHeaderLen with
  | some [k, c0, c1, s, t0, t1, r0, r1] =>
      match DeniableKindTag.fromU8 k with
      | none => .error .invalidField
      | some kind =>
          let credIdLen := leNat [c0, c1]
          let saltLen := s.toNat
          let tpmBlobLen := leNat [t0, t1]
          if r0 ≠ 0 ∨ r1 ≠ 0 then .error .invalidField
          else if credIdLen > credIdMaxLen then .error .invalidField
          else if ¬ (saltLen = 0 ∨ saltLen = hmacSaltLen) then .error .invalidField
          else if tpmBlobLen > tpmBlobMaxLen then .error .invalidField
          else if credIdLen + saltLen + tpmBlobLen > materialBudget then .error .invalidField
          else decodeFields buf.val kind credIdLen saltLen tpmBlobLen
  | _ => .error .panic

end Luksbox.PayloadCodec
