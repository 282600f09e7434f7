import KeyQuorum.Cipher.ChaCha20
import KeyQuorum.Event.Basic
import KeyQuorum.Hash.Hmac
import KeyQuorum.Message.Padding
import KeyQuorum.Text.Base64

/-!
Encrypted payloads between two parties, in the form of NIP-44, version two.

Both sides derive one conversation key from the point their keys have in common. With a nonce it
gives the keys of a single message: the padded plaintext is enciphered, and the nonce and the
ciphertext are authenticated. The version, the nonce, the ciphertext and the code are written
in Base64.
-/

namespace KeyQuorum.Payload

def version : UInt8 := 2

structure MessageKeys where
  cipherKey : Block 32
  cipherNonce : Block 12
  codeKey : Bytes

def messageKeys (conversation : Block 32) (nonce : Bytes) : MessageKeys :=
  let stretched := Hmac.expand conversation.bytes nonce 76
  ⟨⟨stretched.take 32, by simp [stretched]⟩, ⟨(stretched.drop 32).take 12, by simp [stretched]⟩,
    stretched.drop 44⟩

/-- The ciphertext of a padded plaintext, and the plaintext of a ciphertext. -/
def MessageKeys.apply (m : MessageKeys) (data : Bytes) : Bytes :=
  ChaCha20.apply m.cipherKey m.cipherNonce data

def MessageKeys.code (m : MessageKeys) (nonce ciphertext : Bytes) : Bytes :=
  (Hmac.code m.codeKey (nonce ++ ciphertext)).bytes

def conversationKey (k : KeyPair) (peer : PublicKey) : Except MessageError (Block 32) :=
  match k.sharedX peer with
  | .ok x => .ok (Hmac.extract "nip44-v2".toUTF8.data.toList x.bytes)
  | .error e => .error (.key e)

def sealBytes? (conversation : Block 32) (nonce : Block 32) (plaintext : Bytes) : Option Bytes :=
  (Padding.pad? plaintext).map fun padded =>
    let keys := messageKeys conversation nonce.bytes
    let ciphertext := keys.apply padded
    version :: nonce.bytes ++ ciphertext ++ keys.code nonce.bytes ciphertext

def openBytes? (conversation : Block 32) : Bytes → Option Bytes
  | [] => none
  | v :: body =>
    if v = version ∧ 98 ≤ body.length ∧ body.length ≤ 65602 then
      let nonce := body.take 32
      let ciphertext := (body.drop 32).take (body.length - 64)
      let keys := messageKeys conversation nonce
      if keys.code nonce ciphertext = body.drop (body.length - 32) then
        Padding.unpad? (keys.apply ciphertext)
      else none
    else none

def encryptWith (conversation nonce : Block 32) (plaintext : Bytes) : Except MessageError String :=
  match sealBytes? conversation nonce plaintext with
  | some bs => .ok (Base64.encode bs)
  | none => .error .encryption

def decryptWith (conversation : Block 32) (payload : String) : Except MessageError Bytes :=
  match (Base64.decode payload).bind (openBytes? conversation) with
  | some p => .ok p
  | none => .error .decryption

def encrypt (k : KeyPair) (peer : PublicKey) (nonce : Block 32) (plaintext : Bytes) :
    Except MessageError String := do
  encryptWith (← conversationKey k peer) nonce plaintext

def decrypt (k : KeyPair) (peer : PublicKey) (payload : String) : Except MessageError Bytes := do
  decryptWith (← conversationKey k peer) payload

end KeyQuorum.Payload
