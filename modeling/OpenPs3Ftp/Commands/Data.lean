import OpenPs3Ftp.Commands.Login

/-! Data-channel setup of `commands.c`: passive listeners and active targets. -/
namespace OpenPs3Ftp.Commands
open Lib Text Fs Session

/- Ports tried by `bind_listener_in_range`, in order; 0 is an ephemeral port. -/
def bindCandidates (lo hi : Nat) : List Nat :=
  if lo = 0 ∨ hi < lo then [0] else List.range' lo (hi - lo + 1) ++ [0]

def bindFirst (fd : Fd) : List Nat → Handler Bool
  | [] => return false
  | port :: rest => do
    if ← invoke (.bind fd port) then return true else bindFirst fd rest

variable (s : Server) (c : Client) (param : Option Bytes)

def bindListenerInRange (fd : Fd) : Handler Bool :=
  bindFirst fd (bindCandidates s.pasvMin.toNat s.pasvMax.toNat)

def closeListener : Handler Client :=
  match c.pasvFd with
  | none => return c
  | some fd => do
    invoke (.closeFd fd)
    return { c with pasvFd := none }

/- A bound and listening socket; a socket that cannot listen is closed again. -/
def openListener (fd : Fd) : Handler Bool := do
  if ← bindListenerInRange s fd then
    if ← invoke (.listen fd) then return true
    else do
      invoke (.closeFd fd)
      return false
  else do
    invoke (.closeFd fd)
    return false

inductive Advertised where
  | address (ip : Ip4)
  | onlyIpv6
  | unknown
  deriving DecidableEq, Repr

def advertised : SockAddr → Advertised
  | .inet ip _ => .address ip
  | .inet6 ip _ =>
    match ip.mapped with
    | some v4 => .address v4
    | none => .onlyIpv6
  | .unspec => .unknown

def loopback (ip : Ip4) : Ip4 := if ip = ⟨0,0,0,0⟩ then ⟨127,0,0,1⟩ else ip

def commaSeparated (ip : Ip4) (port : UInt16) : Bytes :=
  decimal ip.a.toNat ++ [44] ++ decimal ip.b.toNat ++ [44] ++ decimal ip.c.toNat ++ [44] ++
    decimal ip.d.toNat ++ [44] ++ decimal (port.toNat / 256) ++ [44] ++ decimal (port.toNat % 256)

/- Common end of PASV and EPSV: a listener on the new socket and its port announced. -/
def announceListener (code : Nat) (text : UInt16 → Bytes) : Option Fd → Handler Client
  | none => answering 425 r425 c
  | some fd => do
    if ← openListener s fd then do
      let port ← invoke (.boundPort fd)
      reply code (text port)
      return { c with pasvFd := some fd, haveDataPeer := false }
    else answering 425 r425 c

def cmdPasv : Handler Client := do
  match advertised (← invoke .localAddr) with
  | .onlyIpv6 => answering 522 (ascii "Network protocol not supported, use (1)") c
  | .unknown => answering 425 r425 c
  | .address ip =>
    let c ← closeListener c
    let fd ← invoke (.socket .inet)
    announceListener s c 227 (fun port => snprintf 128
      (ascii "Entering Passive Mode (" ++ commaSeparated (loopback ip) port ++ ascii ")")) fd

/- One `%u` of `sscanf`, stored in 32 bits. -/
def scanUnsigned (text : Bytes) : Option (Nat × Bytes) :=
  (strtoull text).map fun (v,rest) => (v % 2 ^ 32,rest)

/- `"%u,%u,..."` with one more number for each further conversion. -/
def scanTuple : Nat → Bytes → Option (List Nat)
  | 0,_ => some []
  | 1,text => (scanUnsigned text).map fun (v,_) => [v]
  | n + 2,text => do
    let (v,rest) ← scanUnsigned text
    match rest with
    | 44 :: rest => do
      let more ← scanTuple (n + 1) rest
      some (v :: more)
    | _ => none

def cmdPort : Handler Client :=
  match param.bind (scanTuple 6) with
  | some [h1,h2,h3,h4,p1,p2] =>
    if [h1,h2,h3,h4,p1,p2].all (· ≤ 255) then do
      let ip : Ip4 := ⟨UInt8.ofNat h1,UInt8.ofNat h2,UInt8.ofNat h3,UInt8.ofNat h4⟩
      let c ← closeListener { c with dataPeer := .inet ip (UInt16.ofNat (p1 * 256 + p2)), haveDataPeer := true }
      answering 200 r200 c
    else answering 501 r501 c
  | _ => answering 501 r501 c

def controlProtocol (peer : SockAddr) : Int :=
  match peer with
  | .inet6 ip _ => if ip.mapped = none then 2 else 1
  | _ => 1

def dualSocket : Handler (Option Fd) := do
  match ← invoke (.socket .inet6) with
  | some fd => return some fd
  | none => invoke (.socket .inet)

def cmdEpsv : Handler Client :=
  if (given param).any (fun p => atoi p ≠ controlProtocol c.peer) then
    answering 522 (ascii "Network protocol not supported, use (1,2)") c
  else do
    let c ← closeListener c
    let fd ← dualSocket
    announceListener s c 229 (fun port => snprintf 64
      (ascii "Entering Extended Passive Mode (|||" ++ decimal port.toNat ++ ascii "|)")) fd

/- `%<width>[^|]`: at least one byte, none of them a bar. -/
def scanField (width : Nat) (text : Bytes) : Option (Bytes × Bytes) :=
  let field := (text.takeWhile (· ≠ 124)).take width
  if field = [] then none else some (field,text.drop field.length)

def bar : Bytes → Option Bytes
  | 124 :: rest => some rest
  | _ => none

/- `"|%7[^|]|%127[^|]|%15[^|]|"` with all three conversions made. -/
def scanEprt (text : Bytes) : Option (Bytes × Bytes × Bytes) := do
  let (proto,rest) ← scanField 7 (← bar text)
  let (addr,rest) ← scanField 127 (← bar rest)
  let (port,_) ← scanField 15 (← bar rest)
  some (proto,addr,port)

def anyIp6 : Ip6 := ⟨List.replicate 16 0,by decide⟩

/- The target is written before its address is parsed, so a bad address leaves an
empty target of that family behind. -/
def eprtTarget (proto : Int) (addr : Bytes) (port : UInt16) : SockAddr × Option (Nat × Bytes) :=
  if proto = 1 then
    match s.libc.inetPton4 addr with
    | some ip => (.inet ip port,none)
    | none => (.inet ⟨0,0,0,0⟩ 0,some (501,r501))
  else if proto = 2 then
    match s.libc.inetPton6 addr with
    | some ip => (.inet6 ip port,none)
    | none => (.inet6 anyIp6 0,some (501,r501))
  else (.unspec,some (522,ascii "Network protocol not supported, use (1,2)"))

def cmdEprt : Handler Client :=
  match param.bind scanEprt with
  | none => answering 501 r501 c
  | some (proto,addr,port) =>
    let pnum := ((strtol 10 port).map (·.1)).getD 0
    if pnum < 1 ∨ pnum > 65535 then answering 501 r501 c
    else
      match eprtTarget s (atoi proto) addr (UInt16.ofNat pnum.toNat) with
      | (dst,some (code,msg)) => answering code msg { c with dataPeer := dst }
      | (dst,none) => do
        let c ← closeListener { c with dataPeer := dst, haveDataPeer := true }
        answering 200 r200 c

/- `addr_eq`: a v4-mapped address equals its plain form. -/
def addrEq : SockAddr → SockAddr → Bool
  | .inet x _,.inet y _ => x = y
  | .inet6 x _,.inet6 y _ => x = y
  | .inet6 x _,.inet y _ => x.mapped = some y
  | .inet x _,.inet6 y _ => y.mapped = some x
  | _,_ => false

def peerMatches (peer : SockAddr) : Bool :=
  s.allowForeignPort ∨ addrEq c.peer peer

def precheck : Bool := ¬ c.haveDataPeer ∨ peerMatches s c c.dataPeer

example : scanTuple 6 (ascii "127,0,0,1,4,1") = some [127,0,0,1,4,1] := by decide
example : scanEprt (ascii "|1|10.0.0.2|6275|") = some (ascii "1",ascii "10.0.0.2",ascii "6275") := by decide

end OpenPs3Ftp.Commands
