import Tubekit.Connection.Transfer

/-!
# `socket::recv` and `socket::send`

A socket hands the call on to the system or, with SSL, to OpenSSL, and passes an error to its caller
as an `oper_errno`. `sock2buf` and `buf2sock` look at the return value and at that number only, so
what becomes of an error is decided in two places. `tls_errors_end_iff` follows an error of
`SSL_read` and of `SSL_write` through both: the test of the codes in `socket` is true of every
code, and so each of them arrives as `EAGAIN`.
-/

namespace Tubekit

open Lib

/-- The values of `errno` that are looked at. -/
def eintr : Int := 4
def eagain : Int := 11

/-- What `SSL_get_error` says when the call is to be made again later. -/
def sslErrorWantRead : Int := 2
def sslErrorWantWrite : Int := 3

/-- The return value of a call of the system or of OpenSSL, and what `errno` or `SSL_get_error` says
of it. -/
structure IoAnswer where
  ret : Int
  error : Int

/-- The members of a `socket` that decide how it is read and written: `m_ssl_instance` is there, and
`m_ssl_accepted`. -/
structure Socket where
  sslInstance : Bool
  sslAccepted : Bool

namespace Socket

/-- The text that `recv` and `send` share: the return value and `oper_errno`. -/
def transfer (s : Socket) (answer : IoAnswer) (operErrno : Int) : Int × Int :=
  if s.sslInstance && !s.sslAccepted then (-1, operErrno)
  else if !s.sslInstance then
    (answer.ret, if answer.ret = -1 then answer.error else operErrno)
  else if answer.ret > 0 then (answer.ret, operErrno)
  else if answer.ret = 0 then (answer.ret, operErrno)
  else if answer.error ≠ sslErrorWantRead ∨ answer.error ≠ sslErrorWantWrite then
    (answer.ret, eagain)
  else (answer.ret, answer.error)

/-- `recv`, where `::recv` or `SSL_read` answers. -/
def recv (s : Socket) (answer : IoAnswer) (operErrno : Int) : Int × Int :=
  s.transfer answer operErrno

/-- `send`, where `::send` or `SSL_write` answers. -/
def send (s : Socket) (answer : IoAnswer) (operErrno : Int) : Int × Int :=
  s.transfer answer operErrno

/-- A socket whose SSL handshake is done. -/
def ssl : Socket := { sslInstance := true, sslAccepted := true }

/-- No code is told from another. -/
theorem ssl_transfer {answer : IoAnswer} (hret : answer.ret < 0) (operErrno : Int) :
    ssl.transfer answer operErrno = (answer.ret, eagain) := by
  have htest : answer.error ≠ sslErrorWantRead ∨ answer.error ≠ sslErrorWantWrite := by
    rw [← not_and_or]
    rintro ⟨hread, hwrite⟩
    rw [hread] at hwrite
    exact absurd hwrite (by decide)
  have hpos : ¬answer.ret > 0 := by omega
  have hzero : answer.ret ≠ 0 := by omega
  simp [transfer, ssl, hpos, hzero, htest]

end Socket

/-- The branches of `sock2buf` on a result of `recv`; `data` is what the call has stored, where it
has stored something. -/
def SockRecv.ofResult {size : Nat} (data : RecvBlock size) (result : Int × Int) : SockRecv size :=
  if result.1 = -1 ∧ result.2 = eagain then .failed .eagain
  else if result.1 = -1 ∧ result.2 = eintr then .failed .eintr
  else if result.1 > 0 then .block data
  else if result.1 = 0 then .eof
  else .failed .other

/-- The branches of `buf2sock` on a result of `send`. -/
def SockSend.ofResult (result : Int × Int) : SockSend :=
  if 0 > result.1 then
    if result.2 = eintr then .failed .eintr
    else if result.2 = eagain then .failed .eagain
    else .failed .other
  else .took result.1.toNat

/-- The call is to be made again later. -/
def IoAnswer.Wants (answer : IoAnswer) : Prop :=
  answer.error = sslErrorWantRead ∨ answer.error = sslErrorWantWrite

/-! ## Through the loops -/

namespace Staging

/-- A loop that gets as far as an answer has come there with some staging areas. -/
theorem sock2bufLoop_reaches {before : List SockRecv} {answer : SockRecv} {rest used : List SockRecv}
    {s : Staging}
    (hreached : used.length + before.length <
      (s.sock2bufLoop used (before ++ answer :: rest)).used.length) :
    ∃ s' used', s.sock2bufLoop used (before ++ answer :: rest) =
      sock2bufLoop s' used' (answer :: rest) := by
  induction before generalizing s used with
  | nil => exact ⟨s, used, rfl⟩
  | cons first before ih =>
    -- an answer that ends the loop is the last one that is used
    simp only [List.cons_append, List.length_cons] at hreached ⊢
    cases first with
    | eof =>
      simp only [sock2bufLoop, List.length_append, List.length_singleton] at hreached
      omega
    | failed errno =>
      cases errno with
      | eintr =>
        simp only [sock2bufLoop] at hreached ⊢
        apply ih
        rw [List.length_append, List.length_singleton]
        omega
      | _ =>
        simp only [sock2bufLoop, List.length_append, List.length_singleton] at hreached
        omega
    | block data =>
      simp only [sock2bufLoop] at hreached ⊢
      split at hreached
      · simp only [List.length_append, List.length_singleton] at hreached
        omega
      · apply ih
        rw [List.length_append, List.length_singleton]
        omega

theorem sock2buf_reaches {before : List SockRecv} {answer : SockRecv} {rest : List SockRecv}
    {s : Staging}
    (hreached : before.length < (s.sock2buf (before ++ answer :: rest)).used.length) :
    ∃ s' used', s.sock2buf (before ++ answer :: rest) = sock2bufLoop s' used' (answer :: rest) := by
  unfold sock2buf at hreached ⊢
  split
  · next hheld =>
    rw [if_pos hheld] at hreached
    split at hreached
    · cases hreached
    · apply sock2bufLoop_reaches
      rwa [List.length_nil, Nat.zero_add]
  · next hheld =>
    rw [if_neg hheld] at hreached
    apply sock2bufLoop_reaches
    rwa [List.length_nil, Nat.zero_add]

/-- `sock2buf` waits for more after an error that is `-1`, and ends after another one. -/
theorem sock2buf_ssl {before rest : List SockRecv} {data : RecvBlock} {answer : IoAnswer}
    (hret : answer.ret < 0) {s : Staging}
    (hreached : before.length <
      (s.sock2buf (before ++ .ofResult data (Socket.ssl.recv answer 0) :: rest)).used.length) :
    (s.sock2buf (before ++ .ofResult data (Socket.ssl.recv answer 0) :: rest)).ret =
        decide (answer.ret = -1) ∧
      (s.sock2buf (before ++ .ofResult data (Socket.ssl.recv answer 0) :: rest)).needTask =
        false := by
  obtain ⟨s', used', hloop⟩ := sock2buf_reaches hreached
  rw [hloop, Socket.recv, Socket.ssl_transfer hret]
  by_cases hminus : answer.ret = -1
  · have hanswer : SockRecv.ofResult data (answer.ret, eagain) = .failed .eagain := by
      simp [SockRecv.ofResult, hminus]
    rw [hanswer]
    simp [sock2bufLoop, hminus]
  · have hanswer : SockRecv.ofResult data (answer.ret, eagain) = .failed .other := by
      have hpos : ¬answer.ret > 0 := by omega
      have hzero : answer.ret ≠ 0 := by omega
      simp [SockRecv.ofResult, hminus, hpos, hzero]
    rw [hanswer]
    simp [sock2bufLoop, hminus]

/-- `buf2sock` tries again later, whatever the error is. -/
theorem buf2sock_ssl (s : Staging) {answer : IoAnswer} (hret : answer.ret < 0) (callback : Bool) :
    s.buf2sockStep ⟨.ofResult (Socket.ssl.send answer 0), callback⟩ .tag4 =
      (s, .done true false, []) := by
  have hanswer : SockSend.ofResult (answer.ret, eagain) = .failed .eagain := by
    have hne : eagain ≠ eintr := by decide
    simp [SockSend.ofResult, hret, hne]
  rw [Socket.send, Socket.ssl_transfer hret, hanswer]
  rfl

end Staging

/-- **Errors of TLS.** After an error of `SSL_read`, `sock2buf` waits for more only if the call is to
be made again, and ends the connection otherwise, exactly when the call is to be made again or the
error is not `-1`. After an error of `SSL_write`, `buf2sock` tries again later only if the call is
to be made again, and ends the connection otherwise, exactly when the call is to be made again. -/
theorem tls_errors_end_iff (s : Staging) {answer : IoAnswer} (hret : answer.ret < 0) :
    (∀ (before rest : List SockRecv) (data : RecvBlock),
      let done := s.sock2buf (before ++ .ofResult data (Socket.ssl.recv answer 0) :: rest)
      before.length < done.used.length →
        ((done.ret = true → answer.Wants) ∧
            (¬answer.Wants → done.ret = false ∧ done.needTask = false) ↔
          answer.Wants ∨ answer.ret ≠ -1)) ∧
    ∀ callback,
      let pc := (s.buf2sockStep ⟨.ofResult (Socket.ssl.send answer 0), callback⟩ .tag4).2.1
      ((pc = .done true false → answer.Wants) ∧
          (¬answer.Wants → ∃ ret, pc = .done ret true) ↔ answer.Wants) := by
  constructor
  · intro before rest data done hreached
    obtain ⟨hdone, htask⟩ := Staging.sock2buf_ssl hret hreached
    have hdone' : done.ret = decide (answer.ret = -1) := hdone
    have htask' : done.needTask = false := htask
    rw [hdone', htask']
    by_cases hwants : answer.Wants
    · simp [hwants]
    · by_cases hminus : answer.ret = -1 <;> simp [hwants, hminus]
  · intro callback pc
    have hpc : pc = .done true false := by
      simp only [pc, s.buf2sock_ssl hret callback]
    rw [hpc]
    constructor
    · exact fun h => h.1 rfl
    · exact fun hwants => ⟨fun _ => hwants, fun hnot => absurd hwants hnot⟩

/-- `SSL_ERROR_SSL`, after which the connection is dead. -/
def sslErrorSsl : IoAnswer := { ret := -1, error := 1 }

def someBlock : RecvBlock := ⟨[0], by decide, by decide⟩

/-- Nothing but a call that is to be made again is waited for. -/
theorem tls_errors_end_wantRead :
    let answer : IoAnswer := { ret := -1, error := 2 }
    let done := (Staging.new fun _ => 0).sock2buf
      ([] ++ .ofResult someBlock (Socket.ssl.recv answer 0) :: [])
    (done.ret = true → answer.Wants) ∧
      (¬answer.Wants → done.ret = false ∧ done.needTask = false) :=
  ((tls_errors_end_iff (Staging.new fun _ => 0) (by decide : (-1 : Int) < 0)).1 [] [] someBlock
    (by decide)).mpr (Or.inl (Or.inl rfl))

/-- A dead connection is waited for. -/
theorem tls_error_waited_for :
    ¬sslErrorSsl.Wants ∧
    ((Staging.new fun _ => 0).sock2buf
      [.ofResult someBlock (Socket.ssl.recv sslErrorSsl 0)]).ret = true ∧
    ((Staging.new fun _ => 0).buf2sockStep
      ⟨.ofResult (Socket.ssl.send sslErrorSsl 0), true⟩ .tag4).2.1 = .done true false := by
  refine ⟨?_, rfl, rfl⟩
  rintro (h | h) <;> exact absurd h (by decide)

end Tubekit
