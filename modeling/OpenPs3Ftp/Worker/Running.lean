import OpenPs3Ftp.Worker.Calls
import OpenPs3Ftp.Worker.Sending

/-! A job through any setting, around its transfer: the data connection is set up, in the
clear or inside TLS, and a TLS session is shut down again. -/
namespace OpenPs3Ftp.Worker
open Lib Text Fs Session Events
open Setting (leavesPure leavesAsk leavesThen leavesVia leavesLoop leavesPost)

def Opens : Work → Prop
  | .cancelled | .poll .. | .accept _ | .socket _ | .connect .. | .soError _ => True
  | _ => False

/- Answers under which everything goes well at once. There are an empty file and an empty
directory, and every byte finds its place. -/
def smoothFs : (call : FsCall) → call.Answer
  | .openFile .. => .ok 5
  | .opendir _ => .ok 6
  | .read .. => .ok []
  | .readdir _ => .ok none
  | .write _ bytes => .ok bytes.length
  | .seek _ offset => .ok offset
  | .fstat _ | .stat _ => .error .enoent
  | .mkdir .. | .rmdir _ | .unlink _ | .rename .. | .chmod .. | .utimes .. => .error .eacces
  | .close _ => .ok ()
  | .closedir _ => ()

def smoothly : (call : Work) → call.Answer
  | .fs call => smoothFs call
  | .cancelled => false
  | .malloc | .tlsCreate .. => true
  | .nowMs => 0
  | .poll .. => .ready false true false
  | .accept _ => .ok (4,.unspec)
  | .socket _ => .ok 4
  | .connect .. => .ok ()
  | .soError _ => none
  | .send _ bytes => .ok bytes.length
  | .recv .. => .ok []
  | .tlsHandshake | .tlsCloseNotify => .finished
  | .tlsWrite bytes => .moved bytes.length
  | .tlsRead _ => .moved []
  | .tlsFree | .progress _ | .total _ => ()

/- How a job ended, and what holds then: `Start` if there was no connection to transfer
over, `Bad` if the TLS handshake failed, and otherwise what its transfer left. -/
inductive Concluded {σ : Type} (s : Server) (j : Job) (Start Bad : σ → Prop) (Last : σ → Rc → Prop) (st : σ) (p : Posted) :
    Prop where
  | unconnected (down : p.connOk = false) (code : p.result ≠ none) (here : Start st)
  | unsecured (up : p.connOk = true) (asked : j.needTls = true) (lacking : s.tls = false) (code : p.result ≠ none)
      (here : Start st)
  | unshaken (up : p.connOk = true) (asked : j.needTls = true) (having : s.tls = true) (code : p.result ≠ none)
      (bad : Bad st)
  | ran (up : p.connOk = true) (secure : j.needTls = true → s.tls = true) (last : Last st p.result)

section
variable {σ : Type} {w : Setting Work Work.Answer σ} {spent : σ → Prop} {st : σ}

theorem connectLeaves {Start : σ → Prop} (opens : ∀ st call answer, Start st → Opens call → Start (w.next st call answer))
    (s j) (start : Start st) : w.Leaves spent (fun st _ => Start st) st (datachanConnectJob s j) :=
  Setting.leavesMade (fun _ => makesConnect trivial (fun _ _ _ => trivial) (fun _ _ => trivial)
    (fun _ _ => ⟨trivial,fun _ => trivial⟩) (fun _ => trivial) s) opens start

section
variable {Ready : σ → Prop} {Bad : σ → Errno → Prop} (low : ∀ st, Ready st → spent st)
  (idle : ∀ st call answer, Ready st → Sends call → w.can st call answer → fault call answer = false →
    moved call answer = [] → Ready (w.next st call answer))
  (bad : ∀ st call answer, Ready st → Sends call → w.can st call answer → fault call answer = true →
    Bad (w.next st call answer) (faultCode call answer))
include low idle bad

theorem shakeLeaves (rounds fd) (ready : Ready st) :
    w.Leaves spent (fun st rc => (rc = none ∧ Ready st) ∨ ∃ e, rc = some e ∧ Bad st e) st
      (Bounded.loop (handshakeRound fd) rounds ()) := by
  refine leavesLoop (fun st _ => Ready st) (fun st _ => low st) (fun st _ ready => ?_) rounds ready
  have waiting : ∀ {st} event, Ready st → w.Leaves spent
      (fun st next => Sum.elim (fun _ => Ready st) (fun rc => (rc = none ∧ Ready st) ∨ ∃ e, rc = some e ∧ Bad st e) next) st
      (awaiting fd event () some) := by
    intro st event ready
    refine leavesPost ?_ (awaitingLeaves idle bad fd event () some ready)
    intro st next held
    rcases held with ⟨rfl,ready⟩ | ⟨e,rfl,bad⟩
    · exact ready
    · exact .inr ⟨e,rfl,bad⟩
  refine leavesAsk fun cancelled possible => ?_
  cases cancelled with
  | true => exact leavesPure (.inr ⟨_,rfl,bad _ .cancelled _ ready trivial possible rfl⟩)
  | false =>
    have ready := idle _ .cancelled _ ready trivial possible rfl rfl
    refine leavesAsk fun result possible => ?_
    cases result with
    | finished => exact leavesPure (.inl ⟨rfl,idle _ .tlsHandshake _ ready trivial possible rfl rfl⟩)
    | failed => exact leavesPure (.inr ⟨_,rfl,bad _ .tlsHandshake _ ready trivial possible rfl⟩)
    | wantRead | wantWrite => exact waiting _ (idle _ .tlsHandshake _ ready trivial possible rfl rfl)

theorem setupLeaves {Start : σ → Prop} (clock : ∀ st now, Start st → Ready (w.next st .nowMs now)) (rounds : Nat)
    (s : Server) (fd) (start : Start st) :
    w.Leaves spent (fun st out => (out = (true,none) ∧ s.tls = true ∧ Ready st) ∨
      (∃ e, out.2 = some e ∧ s.tls = true ∧ Bad st e) ∨ (out.1 = false ∧ out.2 ≠ none ∧ s.tls = false ∧ Start st)) st
      (dataTlsSetup rounds s fd) := by
  unfold dataTlsSetup
  split
  · rename_i lacking
    exact leavesPure (.inr (.inr ⟨rfl,by simp,by simpa using lacking,start⟩))
  rename_i having
  have having : s.tls = true := by simpa using having
  refine leavesAsk fun now _ => leavesAsk fun made possible => ?_
  have ready := clock st now start
  cases made with
  | false => exact leavesPure (.inr (.inl ⟨_,rfl,having,bad _ (.tlsCreate ..) _ ready trivial possible rfl⟩))
  | true =>
    have ready := idle _ (.tlsCreate ..) _ ready trivial possible rfl rfl
    refine leavesThen (shakeLeaves low idle bad rounds fd ready) fun st rc held => leavesPure ?_
    rcases held with ⟨rfl,ready⟩ | ⟨e,rfl,bad⟩
    · exact .inl ⟨rfl,having,ready⟩
    · exact .inr (.inl ⟨e,rfl,having,bad⟩)

end

theorem shutdownLeaves {Open Shut Last : σ → Prop}
    (alert : ∀ st answer, Open st ∨ Shut st → Shut (w.next st .tlsCloseNotify answer))
    (poll : ∀ st fd event timeout answer, Shut st → Shut (w.next st (.poll fd event timeout) answer))
    (free : ∀ st answer, Open st ∨ Shut st → Last (w.next st .tlsFree answer)) (fd rc) (opened : Open st) :
    w.Leaves spent (fun st _ => Last st) st (tlsShutdown fd rc) := by
  have notify : ∀ left {st}, Open st ∨ Shut st → w.Leaves spent (fun st _ => Open st ∨ Shut st) st (closeNotify fd left) := by
    intro left
    induction left with
    | zero => exact fun held => leavesPure held
    | succ left ih =>
      intro st held
      refine leavesAsk fun result _ => ?_
      have shut := alert st result held
      split
      · exact leavesPure (.inr shut)
      rename_i event _
      refine leavesAsk fun polled _ => ?_
      have shut := poll _ fd event 100 polled shut
      cases polled with
      | failed e | timeout => exact leavesPure (.inr shut)
      | ready => exact ih (.inr shut)
  refine leavesVia (fun st _ => Open st ∨ Shut st) ?_ fun st _ held => Setting.leavesOne fun answer _ =>
    free st answer held
  split
  · exact notify 50 (.inl opened)
  · exact leavesPure (.inl opened)

section
variable {Start Ready Bad : σ → Prop} {Done Shut Last : Rc → σ → Prop} (low : ∀ st, Ready st → spent st)
  (opens : ∀ st call answer, Start st → Opens call → Start (w.next st call answer))
  (clock : ∀ st now, Start st → Ready (w.next st .nowMs now))
  (idle : ∀ st call answer, Ready st → Sends call → w.can st call answer → fault call answer = false →
    moved call answer = [] → Ready (w.next st call answer))
  (bad : ∀ st call answer, Ready st → Sends call → w.can st call answer → fault call answer = true →
    Bad (w.next st call answer))
  (freed : ∀ st answer, Bad st → Bad (w.next st .tlsFree answer))
  (alert : ∀ rc st answer, Done rc st ∨ Shut rc st → Shut rc (w.next st .tlsCloseNotify answer))
  (poll : ∀ rc st fd event timeout answer, Shut rc st → Shut rc (w.next st (.poll fd event timeout) answer))
  (free : ∀ rc st answer, Done rc st ∨ Shut rc st → Last rc (w.next st .tlsFree answer))
  (done : ∀ rc st, Done rc st → Last rc st)
include low opens clock idle bad freed alert poll free done

theorem runLeaves {rounds : Nat} {s} {j : Job} (data : j.op ≠ .copy)
    (op : ∀ st ch, Start st ∨ Ready st → w.Leaves spent (fun st rc => Done rc st) st (transferOp rounds s j ch))
    (start : Start st) :
    w.Leaves spent (Concluded s j Start Bad fun st rc => Last rc st) st (transferRun rounds s j) := by
  unfold transferRun
  rw [if_neg data]
  refine leavesThen (connectLeaves opens s j start) fun st connected here => ?_
  cases connected with
  | failed dataFd e => exact leavesPure (.unconnected rfl (by simp) here)
  | up fd =>
    refine leavesVia (fun st rc => Concluded s j Start Bad (fun st rc => Last rc st) st ⟨j,some fd,true,rc⟩) ?_
      fun st rc held => leavesPure held
    unfold transferOver
    split
    · rename_i clear
      exact leavesPost (fun st rc held => .ran rfl (fun asked => absurd asked clear) (done rc st held))
        (op st _ (.inl here))
    rename_i sealed
    have sealed : j.needTls = true := by simpa using sealed
    refine leavesThen (@setupLeaves _ w spent st Ready (fun st _ => Bad st) low idle bad Start clock rounds s fd here)
      fun st out held => ?_
    rcases held with ⟨rfl,having,ready⟩ | ⟨e,code,having,held⟩ | ⟨bare,code,lacking,here⟩
    · refine leavesThen (op st _ (.inr ready)) fun st rc held => ?_
      exact leavesThen (shutdownLeaves (alert rc) (poll rc) (free rc) fd rc held) fun st _ last =>
        leavesPure (.ran rfl (fun _ => having) last)
    · obtain ⟨session,rc⟩ := out
      have failed : rc ≠ none := by simp_all
      refine leavesVia (fun st rc' => rc' = rc ∧ Bad st) ?_ fun st rc' held => ?_
      · rw [if_neg failed]
        exact leavesPure ⟨rfl,held⟩
      obtain ⟨rfl,held⟩ := held
      refine leavesVia (fun st _ => Bad st) ?_ fun st _ held => leavesPure (.unshaken rfl sealed having failed held)
      cases session with
      | false => exact leavesPure held
      | true =>
        refine leavesVia (fun st _ => Bad st) ?_ fun st _ held => Setting.leavesOne fun answer _ =>
          freed st answer held
        rw [if_neg failed]
        exact leavesPure held
    obtain ⟨session,rc⟩ := out
    refine leavesVia (fun st rc' => rc' = rc ∧ Start st) ?_ fun st rc' held => ?_
    · rw [if_neg code]
      exact leavesPure ⟨rfl,here⟩
    · obtain ⟨rfl,held⟩ := held
      cases bare
      exact leavesPure (.unsecured rfl sealed lacking code held)

end
end
end OpenPs3Ftp.Worker
