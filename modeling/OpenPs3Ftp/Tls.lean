import OpenPs3Ftp.Events
import OpenPs3Ftp.Worker.Channel

/-! Sessions of `tls.c`: what the wrappers make of the return codes of the TLS library,
and the receive callback with its read-ahead bytes. The library is not modelled: a
return code stands for whatever it decided. -/
namespace OpenPs3Ftp.Tls
open Text Session Worker Events

def tlsPending : Nat := 1024

inductive ShakeCode where | zero | wantRead | wantWrite | error
  deriving DecidableEq, Repr

def tlsHandshake (deadline now : Int) : ShakeCode → Handshake
  | .zero => .finished
  | .wantRead => .wantRead
  | .wantWrite => .wantWrite
  | .error => if 0 < deadline ∧ deadline < now then .failed else .failed

inductive ReadCode where
  | bytes (first : UInt8) (rest : Bytes)
  | zero
  | closeNotify
  | wantRead
  | wantWrite
  | error
  deriving DecidableEq, Repr

def tlsRead : ReadCode → TlsResult Bytes
  | .bytes first rest => .moved (first :: rest)
  | .zero | .closeNotify => .moved []
  | .wantRead => .wantRead
  | .wantWrite => .wantWrite
  | .error => .failed

theorem tlsReadEnd {code} : tlsRead code = .moved [] ↔ code = .zero ∨ code = .closeNotify := by
  cases code <;> simp [tlsRead]

structure TlsSession where
  deadline : Int
  pending : Bytes
  fits : pending.length ≤ tlsPending

/- `opftp_tls_session_create`, where it succeeds. -/
def sessionCreate (pending : Bytes) (deadline : Int) : TlsSession where
  deadline := deadline
  pending := pending.take tlsPending
  fits := List.length_take_le _ _

theorem dropFits {pending : Bytes} (len) (fits : pending.length ≤ tlsPending) :
    (pending.drop len).length ≤ tlsPending := by
  rw [List.length_drop]
  omega

/- `bio_recv`: the socket is read only when nothing is left of the read-ahead bytes. -/
def bioRecv (t : TlsSession) (len : Nat) (socket : Received) : Received × TlsSession :=
  if t.pending = [] then
    (match socket with
      | .bytes chunk => .bytes (chunk.take len)
      | other => other,t)
  else (.bytes (t.pending.take len),⟨t.deadline,t.pending.drop len,dropFits len t.fits⟩)

end OpenPs3Ftp.Tls
