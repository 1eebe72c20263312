import Tubekit.Task.HandshakeMeaning
import Tubekit.Utility.Base64RoundTrip
import Tubekit.Utility.Sha1Stream

/-!
# `Sec-WebSocket-Accept`

The function that `websocket_task::run` applies to the key of the client: the SHA-1 digest of the key
with a fixed suffix, as text, from the text to bytes, and the bytes in base64. The field of the
response is decoded to the digest, so a client sees that the server has read its key.
-/

namespace Tubekit

open Lib Transition

/-- The bytes of the digest of a message. -/
def SHA1.hash (message : Bytes) : Bytes := (SecureHash.digest message).values.flatMap SHA1.bytes

theorem SHA1.length_hash (message : Bytes) : (SHA1.hash message).length = 20 := by
  simp [SHA1.hash, SHA1.bytes, SecureHash.Digest.values]

namespace WebsocketConnection

def guid : Bytes := ascii "258EAFA5-E914-47DA-95CA-C5AB0DC85B11"

/-- `base64_encoded` for the key, if the encoder returns within so many rounds. -/
def base64Encoded (rounds : Nat) (key : Bytes) : Option Bytes :=
  let combineKey := key ++ guid
  let sha1 := SHA1.reset.update combineKey
  let sha1Str := sha1.final.1
  Base64.encode rounds (SHA1.toBinary sha1Str) false

theorem base64Encoded_eq {rounds : Nat} (hrounds : 27 < rounds) (key : Bytes) :
    base64Encoded rounds key = some (Base64.text false (SHA1.hash (key ++ guid))) := by
  have hfinal := SHA1.final_eq (SHA1.hashed_reset.update (key ++ guid))
  have hlength : Base64.digitCount (SHA1.hash (key ++ guid)).length = 27 := by
    rw [SHA1.length_hash]
    rfl
  have hsmall : (SHA1.hash (key ++ guid)).length < 2 ^ 32 := by
    rw [SHA1.length_hash]
    decide
  rw [base64Encoded, hfinal, List.nil_append, SHA1.toBinary_hexText]
  change Base64.encode rounds (SHA1.hash (key ++ guid)) false = _
  rw [Base64.encode_eq _ _ (by rwa [hlength]), if_pos hsmall]

theorem length_base64Encoded (key : Bytes) :
    ((base64Encoded 28 key).getD []).length = 28 := by
  rw [base64Encoded_eq (by decide), Option.getD_some, Base64.length_text, SHA1.length_hash]

/-- `Sec-WebSocket-Accept` for the key. -/
def acceptKey (key : Bytes) : AcceptKey := ⟨(base64Encoded 28 key).getD [], length_base64Encoded key⟩

theorem acceptKey_eq (key : Bytes) :
    (acceptKey key).1 = Base64.text false (SHA1.hash (key ++ guid)) := by
  have hencoded := base64Encoded_eq (Nat.lt_succ_self 27) key
  exact congrArg (Option.getD · []) hencoded

/-- The field is decoded to the digest. -/
theorem decode_acceptKey (key : Bytes) :
    Base64.decode (acceptKey key).1 false = .ok (SHA1.hash (key ++ guid)) := by
  rw [acceptKey_eq]
  exact Base64.decodeLoop_text false _

/-- Two keys have the same field exactly when the digests are the same. -/
theorem acceptKey_eq_iff (key key' : Bytes) :
    acceptKey key = acceptKey key' ↔ SHA1.hash (key ++ guid) = SHA1.hash (key' ++ guid) := by
  constructor
  · intro heq
    have hdecoded := decode_acceptKey key
    rw [heq, decode_acceptKey key'] at hdecoded
    exact (Except.ok.inj hdecoded).symm
  · intro heq
    apply Subtype.ext
    rw [acceptKey_eq, acceptKey_eq, heq]

end WebsocketConnection

open WebsocketConnection

/-- What is queued begins with a response whose field is decoded to the digest of the key and the
suffix. -/
def ProvesKey (accepted : List Bytes) (key : Bytes) : Prop :=
  ∃ field : Bytes,
    accepted.head? = some (ascii "HTTP/1.1 101 Switching Protocols\r\n" ++
      ascii "Upgrade: websocket\r\n" ++ ascii "Connection: Upgrade\r\n" ++
      ascii "Sec-WebSocket-Accept: " ++ field ++ ascii "\r\n\r\n") ∧
    field.length = 28 ∧ Base64.decode field false = .ok (SHA1.hash (key ++ guid))

/-- **The response proves the key.** A `GET` for an upgrade becomes complete in a run of
`websocket_task::run`. Once the run is past the connect protocol, whatever the other threads do, the
first thing queued is the response that proves the key which was found; where none was found,
nothing is queued. -/
theorem Upgrade.response_proves_key {P : Type} {h : HttpParser P} (hdoc : h.Documented)
    {request rest : Bytes} (hget : h.GetUpgrade request) {s s' s'' : Upgrade P}
    (hreach : (Upgrade.system h acceptKey).Reachable s)
    (hbefore : s.pieces.flatten.length < request.length) {answers : List (SockRecv httpBufferSize)}
    (hread : (Upgrade.system h acceptKey).next s (.read answers) = some s')
    (hcomplete : s'.pieces.flatten = request ++ rest) {events : List WebsocketEvent}
    (hrun : (Upgrade.system h acceptKey).Run s' events s'')
    (hpast : s''.life.pc ≠ .connecting ∧ s''.life.pc ≠ .responding) :
    (∀ key, Upgrade.keyFound h s.life.conn.httpParser answers (h.callbacks h.init s'.pieces) =
      some key → ProvesKey s''.life.accepted key) ∧
    (Upgrade.keyFound h s.life.conn.httpParser answers (h.callbacks h.init s'.pieces) = none →
      s''.life.accepted = []) := by
  have hreach' := hreach.step _ hread
  have hstage := Upgrade.stage_read hdoc hget (Upgrade.inv_reachable hreach) hbefore hread hcomplete
  have hfirst := Upgrade.stage_past (Upgrade.inv_reachable (hreach'.run hrun))
    (Upgrade.stage_run hreach' hstage hrun) hpast
  constructor
  · intro key hkey
    rw [hkey, Option.map_some] at hfirst
    exact ⟨(acceptKey key).1, hfirst, (acceptKey key).2, decode_acceptKey key⟩
  · intro hnone
    rw [hnone, Option.map_none, List.head?_eq_none_iff] at hfirst
    exact hfirst

theorem upgradeRequest_ne_nil : Upgrade.upgradeRequest ≠ [] := by decide

theorem upgradeRequest_fits : Upgrade.upgradeRequest.length ≤ httpBufferSize := by decide

/-- The request of a client with the key `k`, in one segment. -/
def upgradeAnswers : List (SockRecv httpBufferSize) :=
  [.block ⟨Upgrade.upgradeRequest, upgradeRequest_ne_nil, upgradeRequest_fits⟩]

theorem Upgrade.response_proves_key_one : ∃ s : Upgrade LineState,
    (Upgrade.system upgradeParser acceptKey).Reachable s ∧
      ProvesKey s.life.accepted (ascii "k") := by
  have hinit : (Upgrade.system upgradeParser acceptKey).init Upgrade.freshUpgrade :=
    ⟨_, ⟨_, _, _, rfl⟩, rfl⟩
  have hreach : (Upgrade.system upgradeParser acceptKey).Reachable admittedUpgrade :=
    (System.Reachable.start hinit).step (.enter .notNeeded) rfl
  have hbefore : admittedUpgrade.pieces.flatten.length < Upgrade.upgradeRequest.length := by decide
  have hruns : (((Upgrade.system upgradeParser acceptKey).next admittedUpgrade
      (.read upgradeAnswers)).bind fun s' =>
        ((Upgrade.system upgradeParser acceptKey).exec s' [.examine, .respond]).map fun s'' =>
          (s'.pieces, s''.life.pc.isPast)) = some ([Upgrade.upgradeRequest], true) := by
    decide +kernel
  obtain ⟨s', hread, hrest⟩ := Option.bind_eq_some_iff.mp hruns
  obtain ⟨s'', hexec, hs⟩ := Option.map_eq_some_iff.mp hrest
  obtain ⟨hpieces, hpast⟩ := Prod.mk.inj hs
  have hcomplete : s'.pieces.flatten = Upgrade.upgradeRequest ++ [] := by simp [hpieces]
  have hpast' : s''.life.pc ≠ .connecting ∧ s''.life.pc ≠ .responding := by
    constructor <;> intro hpc <;> rw [hpc] at hpast <;> exact Bool.noConfusion hpast
  have hproved := Upgrade.response_proves_key upgradeParser_documented upgradeRequest_getUpgrade
    hreach hbefore hread hcomplete (.of_exec hexec) hpast'
  have hkey : Upgrade.keyFound upgradeParser admittedUpgrade.life.conn.httpParser upgradeAnswers
      (upgradeParser.callbacks upgradeParser.init [Upgrade.upgradeRequest]) = some (ascii "k") := by
    decide +kernel
  rw [← hpieces] at hkey
  exact ⟨s'', (hreach.step _ hread).run (.of_exec hexec), hproved.1 _ hkey⟩

end Tubekit
