import Tubekit.Task.HttpAgreement

/-!
# Pooled connections

A connection comes back from its pool with what an earlier client left in it. After `reuse`,
`set_socket_ptr` and `set_gid` it cannot be told from any other connection of its class,
whatever is done to it then.
-/

namespace Tubekit

open Lib

/-- What can be seen of a stream or websocket connection between two operations. -/
structure EndpointView where
  closeFlag : Bool
  gid : Nat
  url : Bytes
  method : Bytes
  headers : HeaderMap
  connected : Bool
  everythingEnd : Bool
  recvContent : Bytes
  sendContent : Bytes
  watingSendContent : Bytes

namespace Endpoint

variable {P : Type} {e e' : Endpoint P}

def view : Endpoint P → EndpointView
  | .stream c =>
    { closeFlag := c.closeFlag
      gid := c.gid
      url := []
      method := []
      headers := fun _ => none
      connected := true
      everythingEnd := false
      recvContent := c.recvBuffer.content
      sendContent := c.sendBuffer.content
      watingSendContent := c.watingSendPack.content }
  | .websocket c =>
    { closeFlag := c.closeFlag
      gid := c.gid
      url := c.url
      method := c.method
      headers := c.headers
      connected := c.connected
      everythingEnd := c.everythingEnd
      recvContent := c.recvBuffer.content
      sendContent := c.sendBuffer.content
      watingSendContent := c.watingSendPack.content }

theorem Agree.view_eq (hagree : Agree e e') : e.view = e'.view := by
  cases hagree with
  | stream c hs =>
    simp only [view, hs.recvBuffer.content, hs.sendBuffer.content, hs.watingSendPack.content]
  | websocket c buffer hs =>
    simp only [view, hs.recvBuffer.content, hs.sendBuffer.content, hs.watingSendPack.content]

/-- All that is seen of a sequence of operations. -/
def observe (h : HttpParser P) (accept : Bytes → AcceptKey) (e : Endpoint P) (ops : List Op) :
    Option (List EndpointOutput × EndpointView) :=
  (e.operate h accept ops).map fun (outs, e) => (outs, e.view)

theorem Agree.observe_eq (h : HttpParser P) (accept : Bytes → AcceptKey) (hagree : Agree e e')
    (ops : List Op) : e.observe h accept ops = e'.observe h accept ops := by
  have hops := Agree.operate h accept hagree ops
  unfold observe
  generalize e.operate h accept ops = r at hops ⊢
  generalize e'.operate h accept ops = r' at hops ⊢
  cases hops with
  | none => rfl
  | some outs hend => simp only [Option.map_some, hend.view_eq]

theorem agree_prepare_stream (init : P) (socketPtr : Option Nat) (gid : Nat)
    (c c' : StreamConnection) :
    Agree ((Endpoint.stream c).prepare init socketPtr gid)
      ((Endpoint.stream c').prepare init socketPtr gid) :=
  .stream ((c.reuse.setSocketPtr socketPtr).setGid gid) (Staging.agree_reuse _ c'.toStaging)

theorem agree_prepare_websocket (init : P) (socketPtr : Option Nat) (gid : Nat)
    (c c' : WebsocketConnection P) :
    Agree ((Endpoint.websocket c).prepare init socketPtr gid)
      ((Endpoint.websocket c').prepare init socketPtr gid) :=
  .websocket (((c.reuse init).setSocketPtr socketPtr).setGid gid) c'.buffer
    (Staging.agree_reuse _ c'.toStaging)

end Endpoint

/-- All that is seen of a sequence of operations on an http connection, with the `close_flag` and
the content of `m_send_buffer` in the end. -/
def HttpConnection.observe {P : Type} (h : HttpParser P) (c : HttpConnection P)
    (ops : List HttpConnection.Op) : List HttpOutput × HttpView × Bool × Bytes :=
  let (outs, c) := c.operate h ops
  (outs, c.view, c.closeFlag, c.sendBuffer.content)

theorem HttpConnection.Agree.observe_eq {P : Type} (h : HttpParser P) {c c' : HttpConnection P}
    (hagree : Agree c c') (ops : List HttpConnection.Op) : c.observe h ops = c'.observe h ops := by
  obtain ⟨houts, hend⟩ := hagree.operate h ops
  unfold observe
  simp only [houts, hend.view_eq, hend.closeFlag_eq, hend.sendBuffer.content]

/-- Whatever two connections of a class have been through, nothing shows it after `reuse`. -/
theorem reuse_forgets {P : Type} (h : HttpParser P) (accept : Bytes → AcceptKey)
    (socketPtr : Option Nat) (gid : Nat) :
    (∀ (c c' : StreamConnection) (ops : List Endpoint.Op),
      ((Endpoint.stream c).prepare h.init socketPtr gid).observe h accept ops =
        ((Endpoint.stream c').prepare h.init socketPtr gid).observe h accept ops) ∧
    (∀ (c c' : HttpConnection P) (ops : List HttpConnection.Op),
      (c.prepare h.init socketPtr gid).observe h ops =
        (c'.prepare h.init socketPtr gid).observe h ops) ∧
    (∀ (c c' : WebsocketConnection P) (ops : List Endpoint.Op),
      ((Endpoint.websocket c).prepare h.init socketPtr gid).observe h accept ops =
        ((Endpoint.websocket c').prepare h.init socketPtr gid).observe h accept ops) := by
  refine ⟨fun c c' ops => ?_, fun c c' ops => ?_, fun c c' ops => ?_⟩
  · exact (Endpoint.agree_prepare_stream h.init socketPtr gid c c').observe_eq h accept ops
  · exact (HttpConnection.agree_prepare h.init socketPtr gid c c').observe_eq h ops
  · exact (Endpoint.agree_prepare_websocket h.init socketPtr gid c c').observe_eq h accept ops

end Tubekit
