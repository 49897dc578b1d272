import PhonePostMix.Core.ByteString
import PhonePostMix.Core.Sha1
import PhonePostMix.Library.Base64

/-! The key with which the server accepts an upgrade. -/

namespace Ppm.WebSocket

def handshakeGuid : List UInt8 := ascii "258EAFA5-E914-47DA-95CA-C5AB0DC85B11"

def makeAcceptKey (convertToBase64 : List UInt8 → List UInt8) (clientKey : List UInt8) :
    List UInt8 :=
  -- `convertToBase64` is `juce::Base64::convertToBase64`
  convertToBase64 (Sha1.hash (clientKey ++ handshakeGuid))

theorem makeAcceptKey_eq {convertToBase64 : List UInt8 → List UInt8}
    (hbase64 : ∀ bytes, convertToBase64 bytes = Base64.encode bytes) (clientKey : List UInt8) :
    makeAcceptKey convertToBase64 clientKey =
      Base64.encode (SecureHash.sha1 (clientKey ++ handshakeGuid)) := by
  obtain ⟨hdigest, -⟩ := Sha1.finish_updates Sha1.ready_new [clientKey ++ handshakeGuid]
  rw [List.flatten_singleton] at hdigest
  rw [makeAcceptKey, hbase64, ← hdigest]
  rfl

/-- The hash is the standard's for every message and every way to cut it, from a new object as
from one that has finished another message, and so the accept key is what the handshake asks
for. -/
theorem accept_key_standard {convertToBase64 : List UInt8 → List UInt8}
    (hbase64 : ∀ bytes, convertToBase64 bytes = Base64.encode bytes) :
    Sha1.Ready {} ∧
      (∀ s : Sha1, s.Ready → ∀ pieces : List (List UInt8),
        (s.updates pieces).finish.1 = SecureHash.sha1 pieces.flatten ∧
          (s.updates pieces).finish.2.Ready) ∧
      ∀ clientKey, makeAcceptKey convertToBase64 clientKey =
        Base64.encode (SecureHash.sha1 (clientKey ++ handshakeGuid)) :=
  ⟨Sha1.ready_new, fun _ h pieces => Sha1.finish_updates h pieces, makeAcceptKey_eq hbase64⟩

theorem accept_key_sample :
    makeAcceptKey Base64.encode (ascii "dGhlIHNhbXBsZSBub25jZQ==") =
        ascii "s3pPLMBiTxaQ9kYGzzhZRbK+xOo=" ∧
      Base64.encode (SecureHash.sha1 (ascii "dGhlIHNhbXBsZSBub25jZQ==" ++ handshakeGuid)) =
        ascii "s3pPLMBiTxaQ9kYGzzhZRbK+xOo=" := by
  have hkey : makeAcceptKey Base64.encode (ascii "dGhlIHNhbXBsZSBub25jZQ==") =
      ascii "s3pPLMBiTxaQ9kYGzzhZRbK+xOo=" := by decide +kernel
  obtain ⟨-, -, hstandard⟩ := accept_key_standard fun bytes => Eq.refl (Base64.encode bytes)
  exact ⟨hkey, (hstandard _).symm.trans hkey⟩

end Ppm.WebSocket
